import Highlight.Proofs.Renderer.Soundness
/-! # Clean lines and the lines above them

A line that is not out of date remembers the state that the line above it hands over now. Lines
above it may have been replaced, moved, left as placeholders or marked since it was read: whatever
changes the fingerprint of the state that reaches a line marks the line, in whichever mode, inside
the window and below it. So a list without dirty lines is a reading of the whole text, where no two
states have the same fingerprint.
-/
namespace Highlight

variable {σ : Type}

namespace Renderer

theorem dirtyCount_eq_zero {r : Renderer σ} :
    r.dirtyCount = 0 ↔ ∀ l ∈ r.lines, l.dirty = false := by
  simp [dirtyCount, List.countP_eq_zero]

variable [Fingerprint σ]

/-- Each clean line remembers the state that the line above it hands over; a state reaches the first
one. -/
def Linked : σ → List (Line σ) → Prop
  | _, [] => True
  | st, l :: ls =>
    (l.dirty = false → l.inboundFingerprint = Fingerprint.of st) ∧ Linked l.outbound ls

private theorem Linked.markDirtyFrom {st : σ} {lines : List (Line σ)} (h : Linked st lines)
    (index : Nat) : Linked st (lines.take index ++ (lines.drop index).map Line.markDirty) := by
  induction lines generalizing st index with
  | nil => simpa using h
  | cons l ls ih =>
    cases index with
    | zero =>
      constructor
      · intro hclean
        contradiction
      · have hrest : Linked l.outbound (ls.map Line.markDirty) := by simpa using ih h.2 0
        exact hrest
    | succ index => exact ⟨h.1, ih h.2 index⟩

theorem Linked.inbound_eq {st : σ} {above below : List (Line σ)} {l : Line σ}
    (h : Linked st (above ++ l :: below)) (hclean : l.dirty = false) :
    l.inboundFingerprint = Fingerprint.of (Line.handover st above) := by
  induction above generalizing st with
  | nil => exact h.1 hclean
  | cons m above ih =>
    rw [Line.handover_cons]
    exact ih h.2

/-- Clean lines that fit together are a reading of their texts. -/
theorem Linked.results {T : Tokenizer σ} {states : List σ} {st : σ} {lines : List (Line σ)}
    (h : Linked st lines) (hsep : Fingerprint.Separates states) (hst : st ∈ states)
    (hsound : ∀ l ∈ lines, l.Sound T states) (hclean : ∀ l ∈ lines, l.dirty = false) :
    lines.map Line.result = T.thread st (lines.map Line.text) := by
  induction lines generalizing st with
  | nil => rfl
  | cons l ls ih =>
    have hl := hsound l List.mem_cons_self
    have hdirty : l.dirty = false := hclean l List.mem_cons_self
    have hresult := hl.result_eq hsep hdirty hst (h.1 hdirty)
    have hout : l.outbound = (T.tokenize l.text st).outbound := congrArg LineTokens.outbound hresult
    have hrest := ih h.2 hl.outbound_mem (fun m hm => hsound m (List.mem_cons_of_mem l hm))
      fun m hm => hclean m (List.mem_cons_of_mem l hm)
    rw [List.map_cons, List.map_cons, Tokenizer.thread, hrest, hresult, hout]

variable [DecidableEq σ]

private theorem Pass.read_inboundFingerprint (T : Tokenizer σ) (text : Text) (inbound : σ)
    (p : Pass σ) : (p.read T text inbound).1.inboundFingerprint = Fingerprint.of inbound := by
  obtain ⟨result, hread⟩ := p.read_rendered T text inbound
  rw [hread]
  rfl

/-- Whatever is done with a line, it is dirty or remembers the state that reaches it. -/
theorem LineStep.linked {T : Tokenizer σ} {window : Window} {mode : RenderMode} {index : Nat}
    {text : Text} {inbound : σ} {p : Pass σ} {old? : Option (Line σ)} {next : Line σ × Pass σ}
    (h : LineStep T window mode index text inbound p old? next) (hclean : next.1.dirty = false) :
    next.1.inboundFingerprint = Fingerprint.of inbound := by
  cases h with
  | kept reuses settled =>
    obtain ⟨hsame, hin⟩ := Line.reachedBy_of_clean hclean
    rw [hsame]
    exact hin
  | refreshed reuses dirty needed => exact Pass.read_inboundFingerprint T text inbound _
  | left new notFull below => contradiction
  | read new needed => exact Pass.read_inboundFingerprint T text inbound p

private theorem renderLines_linked (T : Tokenizer σ) (window : Window) (mode : RenderMode)
    (index : Nat) (inbound : σ) (p : Pass σ) (work : List (Text × Option (Line σ))) :
    Linked inbound (renderLines T window mode index inbound p work).1 := by
  induction work generalizing index inbound p with
  | nil => trivial
  | cons w work ih =>
    have hstep := renderLine_step T window mode index w.1 w.2 inbound p
    exact ⟨hstep.linked, ih (index + 1) _ _⟩

/-- Each request keeps the lines linked to those above them. -/
theorem linked_perform {r : Renderer σ} (h : Linked r.tokenizer.initial r.lines)
    (request : Request) :
    Linked (r.perform request).tokenizer.initial (r.perform request).lines := by
  cases request with
  | render texts window mode =>
    exact renderLines_linked r.tokenizer window mode 0 r.tokenizer.initial _ (r.work texts)
  | markDirtyFrom index => exact h.markDirtyFrom index
  | reset => trivial

theorem linked_run (T : Tokenizer σ) (capacity : Nat) (requests : List Request) :
    Linked T.initial ((ofTokenizer T capacity).run requests).lines := by
  have hrun := run_invariant (P := fun r : Renderer σ => Linked r.tokenizer.initial r.lines)
    (r := ofTokenizer T capacity) trivial (fun _ request h => linked_perform h request) requests
  rwa [run_tokenizer] at hrun

/-- After any requests, a clean line has the tokens and the state of a reading of its text from the
state that the line above it hands over; a line that remembers another state is dirty; and if no
line is dirty, the lines are a reading of the whole text. No two of the states that meet are taken
for the same. -/
theorem clean_follows_above (T : Tokenizer σ) (capacity : Nat) (requests : List Request)
    (hsep : Fingerprint.Separates (statesMet T requests)) :
    let r := (ofTokenizer T capacity).run requests
    (∀ above l below, r.lines = above ++ l :: below →
      (l.dirty = false → l.result = T.tokenize l.text (Line.handover T.initial above)) ∧
      (l.inboundFingerprint ≠ Fingerprint.of (Line.handover T.initial above) →
        l.dirty = true)) ∧
    (r.dirtyCount = 0 → r.lines.map Line.result = T.document (r.lines.map Line.text)) := by
  intro r
  have hsound : ∀ l ∈ r.lines, l.Sound T (statesMet T requests) := by
    have hlines := (sound_run T capacity requests hsep fun _ => states_subset_met T).lines
    rwa [run_tokenizer] at hlines
  have hinitial : T.initial ∈ statesMet T requests := List.mem_cons_self
  have hlinked : Linked T.initial r.lines := linked_run T capacity requests
  constructor
  · intro above l below hlines
    rw [hlines] at hlinked hsound
    have habove : Line.handover T.initial above ∈ statesMet T requests :=
      Line.handover_mem hinitial fun m hm => hsound m (List.mem_append_left _ hm)
    constructor
    · intro hclean
      exact (hsound l (by simp)).result_eq hsep hclean habove (hlinked.inbound_eq hclean)
    · intro hne
      by_contra hdirty
      exact hne (hlinked.inbound_eq (by simpa using hdirty))
  · intro hcount
    exact hlinked.results hsep hinitial hsound (dirtyCount_eq_zero.mp hcount)

/-- An object becomes an array while the line below it is out of sight: that line, which was read
inside the object, is dirty, the array is not. Before the edit no line is dirty. -/
theorem clean_follows_above_edited :
    let opening : Request := .render [['{'], ['1']] ⟨0, 1⟩ .partly
    let edit : Request := .render [['['], ['1']] ⟨0, 0⟩ .partly
    let r := (ofTokenizer Json.language.tokenizer 4).run [opening]
    let edited := (ofTokenizer Json.language.tokenizer 4).run [opening, edit]
    let object : Json.State := { brackets := [.object], inObjectKey := true }
    let array : Json.State := { brackets := [.array] }
    let l := Line.rendered 3 ['['] {} ⟨[⟨.bracket, ['[']⟩], array⟩
    let m := (Line.rendered 2 ['1'] object ⟨[⟨.number, ['1']⟩], object⟩).markDirty
    Fingerprint.Separates (statesMet Json.language.tokenizer [opening]) ∧
    (r.dirtyCount = 0 ∧ r.lines.map Line.result =
      Json.language.tokenizer.document (r.lines.map Line.text)) ∧
    Fingerprint.Separates (statesMet Json.language.tokenizer [opening, edit]) ∧
    edited.lines = [] ++ l :: [m] ∧
    (l.dirty = false ∧ l.result = Json.language.tokenizer.tokenize ['['] (Line.handover {} [])) ∧
    edited.lines = [l] ++ m :: [] ∧
    m.inboundFingerprint ≠ Fingerprint.of (Line.handover {} [l]) ∧ m.dirty = true := by
  intro opening edit r edited object array l m
  have hsep : Fingerprint.Separates (statesMet Json.language.tokenizer [opening]) := by
    decide +kernel
  have hsep' : Fingerprint.Separates (statesMet Json.language.tokenizer [opening, edit]) := by
    decide +kernel
  have hcount : r.dirtyCount = 0 := by decide +kernel
  have hlines : edited.lines = [l, m] := by decide +kernel
  have hne : m.inboundFingerprint ≠ Fingerprint.of (Line.handover {} [l]) := by decide +kernel
  have hbefore := clean_follows_above Json.language.tokenizer 4 [opening] hsep
  have hafter := (clean_follows_above Json.language.tokenizer 4 [opening, edit] hsep').1
  exact ⟨hsep, ⟨hcount, hbefore.2 hcount⟩, hsep', hlines,
    ⟨rfl, (hafter [] l [m] hlines).1 rfl⟩, hlines, hne, (hafter [l] m [] hlines).2 hne⟩

end Renderer
end Highlight
