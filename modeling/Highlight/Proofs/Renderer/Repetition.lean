import Highlight.Proofs.Diff.LocalEdit
import Highlight.Proofs.Renderer.Linked
/-! # Passes over the same texts

A partial pass over the texts of the pass before it has nothing to do, if its window does not reach
further down. Up to the end of that window no line is dirty, and a clean line remembers the state
that reaches it, whatever state dirty lines and placeholders hand on. So each line stays as it is,
dirty ones included, and nobody asks the cache. A line is left alone for its fingerprint, so none
of this rests on fingerprints being different.
-/
namespace Highlight

variable {σ : Type}

private theorem Line.reachedBy_eq_self [Fingerprint σ] {l : Line σ} {inbound : σ}
    (h : l.dirty = false → l.inboundFingerprint = Fingerprint.of inbound) :
    l.reachedBy inbound = l := by
  cases hdirty : l.dirty with
  | true =>
    have hmarked : l.markDirty = l := by rw [markDirty, ← hdirty]
    rcases l.reachedBy_eq inbound with heq | heq
    · exact heq
    · exact heq.trans hmarked
  | false => rw [reachedBy, if_neg (not_not_intro (h hdirty))]

namespace Patch

private theorem scriptFrom_kept (index : Nat) (lines : List (Line σ)) :
    scriptFrom index (lines.map fun _ => .same) (lines.map Line.id) lines =
      (List.range' index lines.length).map (⟨·, .keep⟩) := by
  induction lines generalizing index with
  | nil => rfl
  | cons l lines ih =>
    rw [List.length_cons, List.range'_succ]
    simp only [List.map_cons, scriptFrom, refresh, if_pos, ih]

end Patch

namespace Renderer

private theorem align_same (lines : List (Line σ)) :
    align (lines.map fun _ => .same) lines = lines.map some := by
  induction lines with
  | nil => rfl
  | cons l lines ih => rw [List.map_cons, align, ih, List.map_cons]

private theorem between_texts (lines : List (Line σ)) :
    Diff.between (lines.map Line.text) (lines.map Line.text) = lines.map fun _ => .same := by
  rw [Diff.between_self, List.map_map]
  rfl

private theorem work_self (r : Renderer σ) :
    r.work (r.lines.map Line.text) = r.lines.map fun l => (l.text, some l) := by
  rw [work, between_texts, align_same, List.zip_map']

/-- A pass that has counted more, but has given out no identity and left the cache alone. -/
structure Pass.Idle (p q : Pass σ) : Prop where
  cache : q.cache = p.cache
  lastId : q.lastId = p.lastId

private theorem Pass.Idle.trans {p q t : Pass σ} (h : p.Idle q) (h' : q.Idle t) : p.Idle t :=
  ⟨h'.cache.trans h.cache, h'.lastId.trans h.lastId⟩

variable [DecidableEq σ] [Fingerprint σ]

private theorem LineStep.leaves {T : Tokenizer σ} {window : Window} {index : Nat} {text : Text}
    {inbound : σ} {p : Pass σ} {old : Line σ} {next : Line σ × Pass σ}
    (h : LineStep T window .partly index text inbound p (some old) next)
    (hlinked : old.dirty = false → old.inboundFingerprint = Fingerprint.of inbound)
    (hbelow : old.dirty = true → window.isBelow index = true) : next.1 = old ∧ p.Idle next.2 := by
  have hreached := Line.reachedBy_eq_self hlinked
  cases h with
  | kept reuses settled => exact ⟨hreached, p.meet_cache old inbound, p.meet_lastId old inbound⟩
  | refreshed reuses dirty needed =>
    rw [hreached] at dirty
    rw [hbelow dirty] at needed
    contradiction
  | left new notFull below =>
    have hreuses := new old rfl
    contradiction
  | read new needed =>
    have hreuses := new old rfl
    contradiction

private theorem renderLines_leave {T : Tokenizer σ} {window : Window} (lines : List (Line σ))
    (index : Nat) (inbound : σ) (p : Pass σ) (hlinked : Linked inbound lines)
    (hclean : ∀ i l, lines[i]? = some l → index + i ≤ window.last → l.dirty = false) :
    let done := renderLines T window .partly index inbound p (lines.map fun l => (l.text, some l))
    done.1 = lines ∧ p.Idle done.2 := by
  induction lines generalizing index inbound p with
  | nil => exact ⟨rfl, rfl, rfl⟩
  | cons l lines ih =>
    have hbelow : l.dirty = true → window.isBelow index = true := by
      intro hdirty
      rw [Window.isBelow, decide_eq_true_iff]
      by_contra hneeded
      have hl := hclean 0 l rfl (by omega)
      rw [hdirty] at hl
      contradiction
    obtain ⟨hline, hidle⟩ :=
      (renderLine_step T window .partly index l.text (some l) inbound p).leaves hlinked.1 hbelow
    obtain ⟨hlines, hidle'⟩ := ih (index + 1) l.outbound
      (renderLine T window .partly index l.text (some l) inbound p).2 hlinked.2
      fun i m hm hneeded => hclean (i + 1) m hm (by omega)
    rw [List.map_cons, renderLines, hline]
    exact ⟨congrArg (l :: ·) hlines, hidle.trans hidle'⟩

/-- A linked list with dirty lines only below the window is left alone by a partial pass over its
own texts. -/
theorem render_leaves {r : Renderer σ} {window : Window}
    (hlinked : Linked r.tokenizer.initial r.lines)
    (hclean : ∀ i l, r.lines[i]? = some l → i ≤ window.last → l.dirty = false) :
    let again := r.render (r.lines.map Line.text) window .partly
    again.1.script = (List.range r.lines.length).map (⟨·, .keep⟩) ∧ again.2 = r := by
  intro again
  have hpass : (r.pass (r.lines.map Line.text) window .partly).1 = r.lines ∧
      Pass.Idle { cache := r.cache, lastId := r.lastId }
        (r.pass (r.lines.map Line.text) window .partly).2 := by
    rw [pass, work_self]
    exact renderLines_leave r.lines 0 _ _ hlinked fun i l hl hneeded => hclean i l hl (by omega)
  obtain ⟨hlines, hcache, hlast⟩ := hpass
  constructor
  · change Patch.script (Diff.between (r.lines.map Line.text) (r.lines.map Line.text))
      (r.lines.map Line.id) (r.pass (r.lines.map Line.text) window .partly).1 = _
    rw [hlines, between_texts, Patch.script, Patch.scriptFrom_kept, List.range_eq_range']
  · change { r with
      cache := (r.pass (r.lines.map Line.text) window .partly).2.cache
      lines := (r.pass (r.lines.map Line.text) window .partly).1
      lastId := (r.pass (r.lines.map Line.text) window .partly).2.lastId } = r
    rw [hlines, hcache, hlast]

/-- After any requests and a pass in any mode, a partial pass over the same texts whose window does
not reach further down keeps every line, by a patch for each, and leaves the renderer exactly as it
was: the lines with all that they hold, dirty or not, the cache with its counters, and the identity
given out last. -/
theorem repeated_pass_idle (T : Tokenizer σ) (capacity : Nat) (requests : List Request)
    (texts : List Text) (window window' : Window) (mode : RenderMode)
    (hlast : window'.last ≤ window.last) :
    let r := (((ofTokenizer T capacity).run requests).render texts window mode).2
    let again := r.render texts window' .partly
    again.1.script = (List.range texts.length).map (⟨·, .keep⟩) ∧ again.2 = r := by
  intro r again
  have htexts : r.lines.map Line.text = texts := render_texts _ texts window mode
  have hlength : r.lines.length = texts.length := by rw [← htexts, List.length_map]
  have hlinked : Linked r.tokenizer.initial r.lines := by
    have hrun := linked_run T capacity (requests ++ [.render texts window mode])
    rw [run, List.foldl_append] at hrun
    have hT : r.tokenizer = T := run_tokenizer _ requests
    rw [hT]
    exact hrun
  have hclean : ∀ i l, r.lines[i]? = some l → i ≤ window'.last → l.dirty = false := by
    intro i l hl hneeded
    exact render_clean _ texts window mode i l hl (.inr (Nat.le_trans hneeded hlast))
  have hleaves := render_leaves hlinked hclean
  rw [htexts, hlength] at hleaves
  exact hleaves

/-- An object becomes an array while the line below it is out of sight, and a line comes in behind
that one. A stale line and a placeholder are left, and the next pass leaves both. -/
theorem repeated_pass_idle_stale :
    let r := (((ofTokenizer Json.language.tokenizer 4).run
      [.render [['{'], ['1']] ⟨0, 1⟩ .partly]).render [['['], ['1'], ['2']] ⟨0, 0⟩ .forceVisible).2
    let again := r.render [['['], ['1'], ['2']] ⟨0, 0⟩ .partly
    let object : Json.State := { brackets := [.object], inObjectKey := true }
    let array : Json.State := { brackets := [.array] }
    r.lines = [Line.rendered 3 ['['] {} ⟨[⟨.bracket, ['[']⟩], array⟩,
        (Line.rendered 2 ['1'] object ⟨[⟨.number, ['1']⟩], object⟩).markDirty,
        Line.placeholder 4 ['2'] object] ∧
      (⟨0, 0⟩ : Window).last ≤ (⟨0, 0⟩ : Window).last ∧
      again.1.script = [⟨0, .keep⟩, ⟨1, .keep⟩, ⟨2, .keep⟩] ∧ again.2 = r := by
  intro r again object array
  have hlines : r.lines = [Line.rendered 3 ['['] {} ⟨[⟨.bracket, ['[']⟩], array⟩,
      (Line.rendered 2 ['1'] object ⟨[⟨.number, ['1']⟩], object⟩).markDirty,
      Line.placeholder 4 ['2'] object] := by decide +kernel
  have hlast : (⟨0, 0⟩ : Window).last ≤ (⟨0, 0⟩ : Window).last := Nat.le_refl 0
  exact ⟨hlines, hlast, repeated_pass_idle Json.language.tokenizer 4
    [.render [['{'], ['1']] ⟨0, 1⟩ .partly] [['['], ['1'], ['2']] ⟨0, 0⟩ ⟨0, 0⟩ .forceVisible hlast⟩

end Renderer
end Highlight
