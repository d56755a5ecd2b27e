import Highlight.Json.Language
import Highlight.Proofs.Renderer.Identity
import Mathlib.Data.List.Nodup
/-! # The life of a line

An identity stands for one line for good. As long as the line is there, its text, its tokens and
its states stay, and it can only become out of date; and once it is gone, also by a reset, no line
has its identity again.
-/
namespace Highlight

variable {σ : Type}

private theorem Line.Shows.unchanged {m l : Line σ} (h : m.Shows l) :
    (l.text = m.text ∧ l.tokens = m.tokens ∧ l.inboundFingerprint = m.inboundFingerprint ∧
      l.outbound = m.outbound) ∧ (m.dirty = true → l.dirty = true) := by
  rcases h with rfl | rfl
  · exact ⟨⟨rfl, rfl, rfl, rfl⟩, fun hdirty => hdirty⟩
  · exact ⟨⟨rfl, rfl, rfl, rfl⟩, fun _ => rfl⟩

namespace Renderer

variable [DecidableEq σ] [Fingerprint σ]

/-- A line that a request leaves was there before, up to date or not, or its identity is new. -/
theorem perform_origin (r : Renderer σ) (request : Request) :
    ∀ l ∈ (r.perform request).lines, (∃ old ∈ r.lines, old.Shows l) ∨ r.lastId < l.id := by
  intro l hl
  cases request with
  | render texts window mode =>
    obtain ⟨w, hw, horigin⟩ := exists_of_mem_right (r.pass_origin texts window mode) l hl
    apply horigin.imp_left
    rintro ⟨old, hold, hshows⟩
    exact ⟨old, (old_of_mem_work hw old hold).1, hshows⟩
  | markDirtyFrom index =>
    rcases List.mem_append.mp hl with hl | hl
    · exact .inl ⟨l, List.mem_of_mem_take hl, .inl rfl⟩
    · obtain ⟨m, hm, rfl⟩ := List.mem_map.mp hl
      exact .inl ⟨m, List.mem_of_mem_drop hm, .inr rfl⟩
  | reset => contradiction

private theorem Numbered.run_origin {r : Renderer σ} (h : r.Numbered) (requests : List Request) :
    ∀ l ∈ (r.run requests).lines, (∃ old ∈ r.lines, old.Shows l) ∨ r.lastId < l.id := by
  induction requests generalizing r with
  | nil => exact fun l hl => .inl ⟨l, hl, .inl rfl⟩
  | cons request requests ih =>
    intro l hl
    rcases ih (h.perform request) l hl with ⟨mid, hmid, hshows⟩ | hnew
    · rcases r.perform_origin request mid hmid with ⟨old, hold, hshows'⟩ | hnew
      · exact .inl ⟨old, hold, hshows'.trans hshows⟩
      · exact .inr (hshows.id_eq ▸ hnew)
    · exact .inr (Nat.lt_of_le_of_lt (h.lastId_le_perform request) hnew)

private theorem Numbered.shows_of_id_eq {r : Renderer σ} (h : r.Numbered) (hdistinct : r.Distinct)
    (requests : List Request) {m l : Line σ} (hm : m ∈ r.lines)
    (hl : l ∈ (r.run requests).lines) (hid : l.id = m.id) : m.Shows l := by
  rcases h.run_origin requests l hl with ⟨old, hold, hshows⟩ | hnew
  · have hsame : old.id = m.id := hshows.id_eq.symm.trans hid
    obtain rfl : old = m := List.inj_on_of_nodup_map hdistinct hold hm hsame
    exact hshows
  · have hle := h m hm
    omega

/-- At every moment the identities of the lines are distinct. A line with the identity of an
earlier one has its text, its tokens and its states, and is out of date if that one was; and an
identity that a list is without does not come back in any later one. -/
theorem identities_last (T : Tokenizer σ) (capacity : Nat) (first second third : List Request) :
    let earlier := (ofTokenizer T capacity).run first
    let later := (ofTokenizer T capacity).run (first ++ second)
    let last := (ofTokenizer T capacity).run (first ++ second ++ third)
    (earlier.lines.map Line.id).Nodup ∧
    (∀ m ∈ earlier.lines, ∀ l ∈ later.lines, l.id = m.id →
      (l.text = m.text ∧ l.tokens = m.tokens ∧ l.inboundFingerprint = m.inboundFingerprint ∧
        l.outbound = m.outbound) ∧ (m.dirty = true → l.dirty = true)) ∧
    (∀ m ∈ earlier.lines, m.id ∉ later.lines.map Line.id → m.id ∉ last.lines.map Line.id) := by
  intro earlier later last
  obtain ⟨hearlier, hdistinct⟩ := numbered_distinct_run T capacity first
  have hlater := (numbered_distinct_run T capacity (first ++ second)).1
  have hsecond : later = earlier.run second := List.foldl_append
  have hthird : last = later.run third := List.foldl_append
  refine ⟨hdistinct, ?_, ?_⟩
  · intro m hm l hl hid
    rw [hsecond] at hl
    exact (hearlier.shows_of_id_eq hdistinct second hm hl hid).unchanged
  · intro m hm hgone hback
    obtain ⟨l, hl, hid⟩ := List.mem_map.mp hback
    rw [hthird] at hl
    rcases hlater.run_origin third l hl with ⟨old, hold, hshows⟩ | hnew
    · have hsame : old.id = m.id := hshows.id_eq.symm.trans hid
      exact hgone (hsame ▸ List.mem_map_of_mem hold)
    · have hle := id_le_lastId T capacity (List.prefix_append first second) m hm
      omega

/-- A line below an edit stays and becomes out of date; the line that was edited is gone, and the
same text gets other identities after a reset. -/
theorem identities_last_reset :
    let edit : Request := .render [['['], ['1']] ⟨0, 0⟩ .partly
    let opening : Request := .render [['{'], ['1']] ⟨0, 1⟩ .partly
    let run := (ofTokenizer Json.language.tokenizer 4).run
    let object : Json.State := { brackets := [.object], inObjectKey := true }
    let gone := Line.rendered 1 ['{'] {} ⟨[⟨.bracket, ['{']⟩], object⟩
    let kept := Line.rendered 2 ['1'] object ⟨[⟨.number, ['1']⟩], object⟩
    (run [opening]).lines = [gone, kept] ∧ kept.markDirty ∈ (run [opening, edit]).lines ∧
      ((kept.markDirty.text = kept.text ∧ kept.markDirty.tokens = kept.tokens ∧
        kept.markDirty.inboundFingerprint = kept.inboundFingerprint ∧
        kept.markDirty.outbound = kept.outbound) ∧
        (kept.dirty = true → kept.markDirty.dirty = true)) ∧
      gone.id ∉ (run [opening, edit]).lines.map Line.id ∧
      gone.id ∉ (run [opening, edit, .reset, opening]).lines.map Line.id := by
  intro edit opening run object gone kept
  have hlines : (run [opening]).lines = [gone, kept] := by decide +kernel
  have hkept : kept.markDirty ∈ (run [opening, edit]).lines := by decide +kernel
  have hgone : gone.id ∉ (run [opening, edit]).lines.map Line.id := by decide +kernel
  have hlast := identities_last Json.language.tokenizer 4 [opening] [edit] [.reset, opening]
  have hgoneMem : gone ∈ (run [opening]).lines := by simp [hlines]
  have hkeptMem : kept ∈ (run [opening]).lines := by simp [hlines]
  exact ⟨hlines, hkept, hlast.2.1 kept hkeptMem kept.markDirty hkept rfl, hgone,
    hlast.2.2 gone hgoneMem hgone⟩

end Renderer
end Highlight
