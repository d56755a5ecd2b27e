import Highlight.Proofs.Renderer.Following
/-! # Identities

No two lines of a list have the same identity, and no identity is given out twice in the whole life
of a renderer, whatever becomes of the line that had it.
-/
namespace Highlight

variable {σ : Type}

namespace Renderer

/-- The old lines that a pass may keep. -/
def olds (work : List (Text × Option (Line σ))) : List (Line σ) := work.filterMap Prod.snd

private theorem olds_tail_sublist (w : Text × Option (Line σ))
    (work : List (Text × Option (Line σ))) :
    (olds work).Sublist (olds (w :: work)) := (List.sublist_cons_self w work).filterMap Prod.snd

private theorem olds_align_sublist {es : List Diff.Entry} {ls : List (Line σ)} {texts : List Text}
    (h : Diff.Replay es (ls.map Line.text) texts) :
    (olds (texts.zip (align es ls))).Sublist ls := by
  generalize hps : ls.map Line.text = ps at h
  induction h generalizing ls with
  | done =>
    rw [List.map_eq_nil_iff.mp hps]
    exact .slnil
  | same x _ ih =>
    obtain ⟨l, ls, rfl, -, htail⟩ := List.map_eq_cons_iff.mp hps
    exact (ih htail).cons_cons l
  | modified _ _ _ _ ih =>
    obtain ⟨l, ls, rfl, -, htail⟩ := List.map_eq_cons_iff.mp hps
    exact (ih htail).cons l
  | added c _ ih =>
    rw [align]
    exact ih hps
  | removed p _ ih =>
    obtain ⟨l, ls, rfl, -, htail⟩ := List.map_eq_cons_iff.mp hps
    exact (ih htail).cons l

private theorem olds_work_sublist (r : Renderer σ) (texts : List Text) :
    (olds (r.work texts)).Sublist r.lines :=
  olds_align_sublist (Diff.between_replay (r.lines.map Line.text) texts)

private theorem Numbered.olds_le {r : Renderer σ} (h : r.Numbered) (texts : List Text) :
    ∀ old ∈ olds (r.work texts), old.id ≤ r.lastId :=
  fun old hold => h old ((olds_work_sublist r texts).mem hold)

def Distinct (r : Renderer σ) : Prop := (r.lines.map Line.id).Nodup

theorem Distinct.index_eq {r : Renderer σ} (h : r.Distinct) {p q : Nat} {l m : Line σ}
    (hp : r.lines[p]? = some l) (hq : r.lines[q]? = some m) (hid : l.id = m.id) : p = q := by
  have hlt : p < (r.lines.map Line.id).length := by
    rw [List.length_map]
    exact (List.getElem?_eq_some_iff.mp hp).1
  apply (List.getElem?_inj hlt h).mp
  rw [List.getElem?_map, List.getElem?_map, hp, hq, Option.map_some, Option.map_some, hid]

variable [DecidableEq σ] [Fingerprint σ]

section Step

variable {T : Tokenizer σ} {window : Window} {mode : RenderMode} {index : Nat} {text : Text}
  {inbound : σ} {p : Pass σ} {old? : Option (Line σ)} {next : Line σ × Pass σ}

theorem LineStep.lastId_le (h : LineStep T window mode index text inbound p old? next) :
    p.lastId ≤ next.2.lastId := by
  rcases h.identity with ⟨old, -, -, hkept⟩ | ⟨-, hgiven⟩
  · exact Nat.le_of_eq hkept.symm
  · omega

private theorem LineStep.id_origin (h : LineStep T window mode index text inbound p old? next)
    (work : List (Text × Option (Line σ))) :
    next.1.id ∈ (olds ((text, old?) :: work)).map Line.id ∨ p.lastId < next.1.id := by
  rcases h.identity with ⟨old, rfl, hshows, -⟩ | ⟨hid, -⟩
  · exact .inl (hshows.id_eq ▸ List.mem_cons_self)
  · exact .inr (by omega)

private theorem LineStep.id_notMem (h : LineStep T window mode index text inbound p old? next)
    {work : List (Text × Option (Line σ))}
    (hold : ∀ old ∈ olds ((text, old?) :: work), old.id ≤ p.lastId)
    (hnodup : ((olds ((text, old?) :: work)).map Line.id).Nodup) {rest : List (Line σ)}
    (hrest : ∀ l ∈ rest, l.id ∈ (olds work).map Line.id ∨ next.2.lastId < l.id) :
    next.1.id ∉ rest.map Line.id := by
  -- A kept line is none of the old lines behind it, and an identity that is given out is above all
  -- of theirs.
  intro hmem
  obtain ⟨l, hl, heq⟩ := List.mem_map.mp hmem
  rcases h.identity with ⟨old, rfl, hshows, hkept⟩ | ⟨hid, hgiven⟩
  · have hid : next.1.id = old.id := hshows.id_eq
    rcases hrest l hl with hbehind | hnew
    · rw [heq, hid] at hbehind
      exact (List.nodup_cons.mp hnodup).1 hbehind
    · have hle := hold old List.mem_cons_self
      omega
  · rcases hrest l hl with hbehind | hnew
    · obtain ⟨old, hmem, hid'⟩ := List.mem_map.mp hbehind
      have hle := hold old ((olds_tail_sublist (text, old?) work).mem hmem)
      omega
    · omega

end Step

theorem pass_at_lastId (r : Renderer σ) {texts : List Text} {window : Window} {mode : RenderMode}
    {i : Nat} {l : Line σ} (hl : (r.pass texts window mode).1[i]? = some l) :
    ∃ w q next, (r.work texts)[i]? = some w ∧ r.lastId ≤ q.lastId ∧
      LineStep r.tokenizer window mode i w.1
        (Line.handover r.tokenizer.initial ((r.pass texts window mode).1.take i)) q w.2 (l, next) := by
  refine r.pass_at (I := fun q => r.lastId ≤ q.lastId) ?_ (Nat.le_refl _) hl
  intro index text old? inbound p hp
  have hstep := renderLine_step r.tokenizer window mode index text old? inbound p
  exact Nat.le_trans hp hstep.lastId_le

/-- The lines of a pass have distinct identities: those of old lines, which are distinct, and
those that the pass gives out. -/
theorem renderLines_nodup {T : Tokenizer σ} {window : Window} {mode : RenderMode}
    (work : List (Text × Option (Line σ))) (index : Nat) (inbound : σ) (p : Pass σ)
    (hold : ∀ old ∈ olds work, old.id ≤ p.lastId) (hnodup : ((olds work).map Line.id).Nodup) :
    ((renderLines T window mode index inbound p work).1.map Line.id).Nodup ∧
      ∀ l ∈ (renderLines T window mode index inbound p work).1,
        l.id ∈ (olds work).map Line.id ∨ p.lastId < l.id := by
  induction work generalizing index inbound p with
  | nil => exact ⟨.nil, by simp [renderLines]⟩
  | cons w work ih =>
    have hstep := renderLine_step T window mode index w.1 w.2 inbound p
    have htail := olds_tail_sublist w work
    obtain ⟨hrest, hids⟩ := ih (index + 1) _ _
      (fun old hmem => Nat.le_trans (hold old (htail.mem hmem)) hstep.lastId_le)
      (hnodup.sublist (htail.map Line.id))
    constructor
    · exact List.nodup_cons.mpr ⟨hstep.id_notMem hold hnodup hids, hrest⟩
    · intro l hl
      rcases List.mem_cons.mp hl with rfl | hl
      · exact hstep.id_origin work
      · rcases hids l hl with hbehind | hnew
        · exact .inl ((htail.map Line.id).mem hbehind)
        · exact .inr (Nat.lt_of_le_of_lt hstep.lastId_le hnew)

theorem Distinct.render {r : Renderer σ} (h : r.Distinct) (hnumbered : r.Numbered)
    (texts : List Text) (window : Window) (mode : RenderMode) :
    (r.render texts window mode).2.Distinct :=
  (renderLines_nodup (r.work texts) 0 r.tokenizer.initial _ (hnumbered.olds_le texts)
    (h.sublist ((olds_work_sublist r texts).map Line.id))).1

private theorem Distinct.perform {r : Renderer σ} (h : r.Distinct) (hnumbered : r.Numbered)
    (request : Request) : (r.perform request).Distinct := by
  cases request with
  | render texts window mode => exact h.render hnumbered texts window mode
  | markDirtyFrom index =>
    have hids : (r.lines.take index ++ (r.lines.drop index).map Line.markDirty).map Line.id =
        r.lines.map Line.id := by
      rw [List.map_append, List.map_map]
      exact (List.map_append (f := Line.id)).symm.trans
        (congrArg (List.map Line.id) (List.take_append_drop index r.lines))
    rw [Distinct, ← hids] at h
    exact h
  | reset => exact .nil

theorem numbered_distinct_run (T : Tokenizer σ) (capacity : Nat) (requests : List Request) :
    ((ofTokenizer T capacity).run requests).Numbered ∧
      ((ofTokenizer T capacity).run requests).Distinct :=
  run_invariant (P := fun r : Renderer σ => r.Numbered ∧ r.Distinct)
    ⟨by simp [Numbered, ofTokenizer], by simp [Distinct, ofTokenizer]⟩
    (fun _ request h => ⟨h.1.perform request, h.2.perform h.1 request⟩) requests

theorem Numbered.lastId_le_perform {r : Renderer σ} (h : r.Numbered) (request : Request) :
    r.lastId ≤ (r.perform request).lastId := by
  cases request with
  | render texts window mode =>
    change r.lastId ≤ (r.pass texts window mode).2.lastId
    exact (renderLines_id_le (r.work texts) 0 r.tokenizer.initial
      { cache := r.cache, lastId := r.lastId } fun w hw old ho =>
        h old (old_of_mem_work hw old ho).1).1
  | markDirtyFrom index => exact Nat.le_refl _
  | reset => exact Nat.le_refl _

private theorem Numbered.lastId_le_run {r : Renderer σ} (h : r.Numbered) (requests : List Request) :
    r.lastId ≤ (r.run requests).lastId := by
  induction requests generalizing r with
  | nil => exact Nat.le_refl _
  | cons request requests ih =>
    exact Nat.le_trans (h.lastId_le_perform request) (ih (h.perform request))

/-- The last identity given out bounds those of all lines there have ever been. -/
theorem id_le_lastId (T : Tokenizer σ) (capacity : Nat) {earlier requests : List Request}
    (hearlier : earlier <+: requests) :
    ∀ m ∈ ((ofTokenizer T capacity).run earlier).lines,
      m.id ≤ ((ofTokenizer T capacity).run requests).lastId := by
  obtain ⟨later, rfl⟩ := hearlier
  intro m hm
  have hnumbered := (numbered_distinct_run T capacity earlier).1
  have hrun : (ofTokenizer T capacity).run (earlier ++ later) =
      ((ofTokenizer T capacity).run earlier).run later := List.foldl_append
  rw [hrun]
  exact Nat.le_trans (hnumbered m hm) (hnumbered.lastId_le_run later)

end Renderer
end Highlight
