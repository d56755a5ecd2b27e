import Highlight.Proofs.Diff.Pairing
import Highlight.Proofs.Renderer.Identity
import Highlight.Proofs.Renderer.Linked
/-! # What a partial pass reads again

If no line is dirty, a partial pass reads again what has changed and nothing else: up to the end of
the window a line is kept if and only if the diff pairs it with an old one that the same state
reached in the text before. All other lines there are new. That two states are the same is told by
their fingerprints.
-/
namespace Highlight

variable {σ : Type}

namespace Renderer

/-- The line that is handed over for line `c`, if any, is the old line that the entries pair it
with. -/
structure Hands (es : List Diff.Entry) (ls : List (Line σ)) (c : Nat) (old? : Option (Line σ)) :
    Prop where
  paired : ∀ old, old? = some old → ∃ p, Diff.Pairs es p c ∧ ls[p]? = some old
  alone : old? = none → ∀ p, ¬ Diff.Pairs es p c

private theorem hands_same (es : List Diff.Entry) (l : Line σ) (ls : List (Line σ)) :
    Hands (.same :: es) (l :: ls) 0 (some l) := by
  constructor
  · intro old hold
    exact ⟨0, Diff.pairs_cons.mpr (.inl ⟨rfl, rfl, rfl⟩), hold⟩
  · intro hnone
    contradiction

private theorem hands_none {e : Diff.Entry} (hne : e ≠ .same) (hcurrent : e.takesCurrent = true)
    (es : List Diff.Entry) (ls : List (Line σ)) : Hands (e :: es) ls 0 none := by
  constructor
  · intro old hold
    contradiction
  · intro _ p hp
    rcases Diff.pairs_cons.mp hp with ⟨heq, -⟩ | ⟨-, c, -, -, hc⟩
    · exact hne heq
    · simp [hcurrent] at hc

private theorem Hands.behind {es : List Diff.Entry} {ls ls' : List (Line σ)} {c : Nat}
    {old? : Option (Line σ)} (h : Hands es ls c old?) (e : Diff.Entry)
    (hls : ∀ p, ls'[p + (if e.takesPrevious then 1 else 0)]? = ls[p]?) :
    Hands (e :: es) ls' (c + (if e.takesCurrent then 1 else 0)) old? := by
  constructor
  · intro old hold
    obtain ⟨p, hp, hget⟩ := h.paired old hold
    exact ⟨_, Diff.pairs_cons.mpr (.inr ⟨p, c, hp, rfl, rfl⟩), (hls p).trans hget⟩
  · intro hnone p hp
    rcases Diff.pairs_cons.mp hp with ⟨rfl, -, hc⟩ | ⟨q, d, hq, -, hd⟩
    · simp [Diff.Entry.takesCurrent] at hc
    · obtain rfl : c = d := Nat.add_right_cancel hd
      exact h.alone hnone q hq

private theorem align_hands {es : List Diff.Entry} {ls : List (Line σ)} {texts : List Text}
    (h : Diff.Replay es (ls.map Line.text) texts) {c : Nat} {old? : Option (Line σ)}
    (hc : (align es ls)[c]? = some old?) : Hands es ls c old? := by
  generalize hps : ls.map Line.text = ps at h
  induction h generalizing ls c with
  | done =>
    rw [List.map_eq_nil_iff.mp hps] at hc
    simp [align] at hc
  | same x _ ih =>
    obtain ⟨l, ls, rfl, -, htail⟩ := List.map_eq_cons_iff.mp hps
    cases c with
    | zero =>
      obtain rfl : some l = old? := Option.some.inj hc
      exact hands_same _ l ls
    | succ c => exact (ih hc htail).behind .same fun _ => rfl
  | modified differ _ _ _ ih =>
    obtain ⟨l, ls, rfl, -, htail⟩ := List.map_eq_cons_iff.mp hps
    cases c with
    | zero =>
      obtain rfl : none = old? := Option.some.inj hc
      exact hands_none (by decide) rfl _ (l :: ls)
    | succ c => exact (ih hc htail).behind .modified fun _ => rfl
  | added x _ ih =>
    rw [align] at hc
    cases c with
    | zero =>
      obtain rfl : none = old? := Option.some.inj hc
      exact hands_none (by decide) rfl _ ls
    | succ c => exact (ih hc hps).behind .added fun _ => rfl
  | removed x _ ih =>
    obtain ⟨l, ls, rfl, -, htail⟩ := List.map_eq_cons_iff.mp hps
    exact (ih hc htail).behind .removed fun _ => rfl

/-- Line `p` of the text before is line `c` of the text now: the diff pairs them, and the state
that reaches the line in a reading of the whole text is still the same. -/
def Stays (T : Tokenizer σ) (before now : List Text) (p c : Nat) : Prop :=
  Diff.Pairs (Diff.between before now) p c ∧
    T.behind T.initial (before.take p) = T.behind T.initial (now.take c)

section

variable [Fingerprint σ] {states : List σ} {r : Renderer σ}

private theorem Sound.handover_behind (h : r.Sound states) (hsep : Fingerprint.Separates states)
    (hinitial : r.tokenizer.initial ∈ states) (hlinked : Linked r.tokenizer.initial r.lines)
    (hclean : r.dirtyCount = 0) {p : Nat} (hp : p ≤ r.lines.length) :
    Line.handover r.tokenizer.initial (r.lines.take p) =
      r.tokenizer.behind r.tokenizer.initial ((r.lines.map Line.text).take p) := by
  cases p with
  | zero => rfl
  | succ p =>
    have hl := List.getElem?_eq_getElem (Nat.lt_of_succ_le hp)
    have htext : (r.lines.map Line.text)[p]? = some r.lines[p].text := by
      rw [List.getElem?_map, hl, Option.map_some]
    have hresult : (r.lines.map Line.result)[p]? = some r.lines[p].result := by
      rw [List.getElem?_map, hl, Option.map_some]
    rw [hlinked.results hsep hinitial h.lines (dirtyCount_eq_zero.mp hclean),
      Tokenizer.getElem?_thread, htext, Option.map_some] at hresult
    rw [Line.handover_take_succ _ hl, r.tokenizer.behind_take_succ _ htext, Option.some.inj hresult]
    rfl

private theorem Sound.inbound_of_clean (h : r.Sound states) (hsep : Fingerprint.Separates states)
    (hinitial : r.tokenizer.initial ∈ states) (hlinked : Linked r.tokenizer.initial r.lines)
    (hclean : r.dirtyCount = 0) {p : Nat} {old : Line σ} (hp : r.lines[p]? = some old) :
    let st := r.tokenizer.behind r.tokenizer.initial ((r.lines.map Line.text).take p)
    st ∈ states ∧ old.inboundFingerprint = Fingerprint.of st := by
  intro st
  obtain ⟨hlt, rfl⟩ := List.getElem?_eq_some_iff.mp hp
  have hsplit : r.lines = r.lines.take p ++ r.lines[p] :: r.lines.drop (p + 1) := by
    rw [List.getElem_cons_drop, List.take_append_drop]
  have hst : Line.handover r.tokenizer.initial (r.lines.take p) = st :=
    h.handover_behind hsep hinitial hlinked hclean (Nat.le_of_lt hlt)
  rw [← hst]
  constructor
  · exact Line.handover_mem hinitial fun m hm => h.lines m (List.mem_of_mem_take hm)
  · rw [hsplit] at hlinked
    exact hlinked.inbound_eq (dirtyCount_eq_zero.mp hclean _ (List.getElem_mem hlt))

end

variable [DecidableEq σ] [Fingerprint σ]

private theorem LineStep.keeps_or_reads {T : Tokenizer σ} {window : Window} {index : Nat}
    {text : Text} {inbound : σ} {p : Pass σ} {old? : Option (Line σ)} {next : Line σ × Pass σ}
    (h : LineStep T window .partly index text inbound p old? next)
    (hneeded : window.isBelow index = false) (hclean : ∀ old ∈ old?, old.dirty = false) :
    (∃ old, old? = some old ∧ old.inboundFingerprint = Fingerprint.of inbound ∧ next.1 = old) ∨
      ((∀ old, old? = some old → old.inboundFingerprint ≠ Fingerprint.of inbound) ∧
        next.1.id = p.lastId + 1) := by
  cases h with
  | @kept old reuses settled =>
    have hreached : (old.reachedBy inbound).dirty = false := by
      by_contra hdirty
      have hbelow := settled (by simpa using hdirty)
      rw [hneeded] at hbelow
      contradiction
    obtain ⟨hsame, hin⟩ := Line.reachedBy_of_clean hreached
    exact .inl ⟨old, rfl, hin, hsame⟩
  | @refreshed old reuses dirty needed =>
    have hne : old.inboundFingerprint ≠ Fingerprint.of inbound := by
      intro hin
      rw [Line.reachedBy, if_neg (not_not_intro hin), hclean old rfl] at dirty
      contradiction
    have hid := (Pass.read_id T text inbound (p.meet old inbound).countDirty).1
    have hlast : (p.meet old inbound).countDirty.lastId = p.lastId := p.meet_lastId old inbound
    rw [hlast] at hid
    refine .inr ⟨?_, hid⟩
    intro old' hold
    obtain rfl : old = old' := Option.some.inj hold
    exact hne
  | left new notFull below =>
    rw [hneeded] at below
    contradiction
  | read new needed =>
    refine .inr ⟨?_, (Pass.read_id T text inbound p).1⟩
    intro old hold
    have hreuses := new old hold
    contradiction

/-- Each needed line of a partial pass over a clean list is the old line that stays in its place,
or is new if none does. -/
theorem Sound.partial_pass {states : List σ} {r : Renderer σ} (h : r.Sound states)
    (hsep : Fingerprint.Separates states) (hlinked : Linked r.tokenizer.initial r.lines)
    (hclean : r.dirtyCount = 0) {texts : List Text} (hmet : r.tokenizer.states texts ⊆ states)
    (window : Window) {c : Nat} {l : Line σ}
    (hl : (r.render texts window .partly).2.lines[c]? = some l) (hneed : c ≤ window.last) :
    (∃ p, Stays r.tokenizer (r.lines.map Line.text) texts p c ∧ r.lines[p]? = some l) ∨
      ((∀ p, ¬ Stays r.tokenizer (r.lines.map Line.text) texts p c) ∧ r.lastId < l.id) := by
  obtain ⟨w, q, next, hw, hlast, hstep⟩ := r.pass_at_lastId hl
  have hinitial : r.tokenizer.initial ∈ states := hmet (r.tokenizer.behind_take_mem texts 0)
  have hc : c < (r.pass texts window .partly).1.length := (List.getElem?_eq_some_iff.mp hl).1
  have hreach := h.reaches hsep hmet window .partly (Nat.le_of_lt hc)
  have hbehind := hreach.behind (.inr hneed)
  have hst := hreach.mem
  rw [hbehind] at hstep hst
  have hneeded : window.isBelow c = false := by
    rw [Window.isBelow, decide_eq_false_iff_not]
    omega
  have hold : ∀ old ∈ w.2, old.dirty = false := by
    intro old hmem
    have hline := (old_of_mem_work (List.mem_of_getElem? hw) old hmem).1
    exact dirtyCount_eq_zero.mp hclean old hline
  have hhands : Hands (Diff.between (r.lines.map Line.text) texts) r.lines c w.2 := by
    apply align_hands (Diff.between_replay (r.lines.map Line.text) texts)
    exact (List.getElem?_zip_eq_some.mp hw).2
  rcases hstep.keeps_or_reads hneeded hold with ⟨old, hsome, hin, heq⟩ | ⟨hnone, hid⟩
  · obtain ⟨p, hpairs, hp⟩ := hhands.paired old hsome
    obtain rfl : l = old := heq
    obtain ⟨hmem, hof⟩ := h.inbound_of_clean hsep hinitial hlinked hclean hp
    exact .inl ⟨p, ⟨hpairs, hsep _ hmem _ hst (hof.symm.trans hin)⟩, hp⟩
  · have hnew : r.lastId < l.id := by
      have hid : l.id = q.lastId + 1 := hid
      have hlast : r.lastId ≤ q.lastId := hlast
      omega
    refine .inr ⟨?_, hnew⟩
    intro p hstays
    cases hold? : w.2 with
    | none => exact hhands.alone hold? p hstays.1
    | some old =>
      obtain ⟨p', hpairs, hp⟩ := hhands.paired old hold?
      obtain rfl : p = p' := hstays.1.unique hpairs
      obtain ⟨-, hof⟩ := h.inbound_of_clean hsep hinitial hlinked hclean hp
      exact hnone old hold? (hof.trans (congrArg Fingerprint.of hstays.2))

/-- A partial pass over a list without dirty lines reads again exactly what has changed. Up to the
end of the window a line has the identity of an old one, and then is that very line, if and only if
that one stays in its place; if none stays there, it has an identity that no line ever had. No two
of the states that meet are taken for the same. -/
theorem partial_pass_keeps (T : Tokenizer σ) (capacity : Nat) (requests : List Request)
    (texts : List Text) (window : Window)
    (hsep : Fingerprint.Separates (statesMet T (requests ++ [.render texts window .partly])))
    (hclean : ((ofTokenizer T capacity).run requests).dirtyCount = 0) :
    let r := (ofTokenizer T capacity).run requests
    let before := r.lines.map Line.text
    let lines := (r.render texts window .partly).2.lines
    (∀ (c : Nat) (l : Line σ), lines[c]? = some l → c ≤ window.last →
      (∀ (p : Nat) (old : Line σ), r.lines[p]? = some old →
        (l.id = old.id ↔ Stays T before texts p c) ∧ (l.id = old.id → l = old)) ∧
      ((∀ p, ¬ Stays T before texts p c) → ∀ earlier, earlier <+: requests →
        ∀ m ∈ ((ofTokenizer T capacity).run earlier).lines, m.id ≠ l.id)) ∧
    (lines.map Line.id).Nodup := by
  intro r before lines
  have hT : r.tokenizer = T := run_tokenizer _ requests
  have hlinked : Linked r.tokenizer.initial r.lines := hT ▸ linked_run T capacity requests
  obtain ⟨hnumbered, hdistinct⟩ := numbered_distinct_run T capacity requests
  refine ⟨?_, hdistinct.render hnumbered texts window .partly⟩
  intro c l hl hneed
  have hsound : r.Sound _ := sound_run_append T capacity requests _ hsep
  have hmet : r.tokenizer.states texts ⊆
      statesMet T (requests ++ [.render texts window .partly]) := by
    rw [hT]
    exact states_subset_met_render T requests texts window .partly
  have hpass := hsound.partial_pass hsep hlinked hclean hmet window hl hneed
  rw [hT] at hpass
  constructor
  · intro p old hp
    rcases hpass with ⟨p', hstays, hp'⟩ | ⟨hgone, hnew⟩
    · -- Identities are distinct, so the line that is kept is the only one with its identity.
      have hsame : l.id = old.id → p' = p := hdistinct.index_eq hp' hp
      constructor
      · constructor
        · intro hid
          exact hsame hid ▸ hstays
        · intro hstays'
          obtain rfl : p = p' := hstays'.1.unique hstays.1
          rw [hp] at hp'
          rw [Option.some.inj hp']
      · intro hid
        obtain rfl : p' = p := hsame hid
        rw [hp] at hp'
        exact (Option.some.inj hp').symm
    · have hold : old.id ≤ r.lastId := hnumbered old (List.mem_of_getElem? hp)
      have hne : l.id ≠ old.id := Nat.ne_of_gt (Nat.lt_of_le_of_lt hold hnew)
      exact ⟨⟨fun hid => absurd hid hne, fun hstays => absurd hstays (hgone p)⟩,
        fun hid => absurd hid hne⟩
  · intro hgone earlier hearlier m hm
    rcases hpass with ⟨p, hstays, -⟩ | ⟨-, hnew⟩
    · exact absurd hstays (hgone p)
    · have hle := id_le_lastId T capacity hearlier m hm
      exact Nat.ne_of_lt (Nat.lt_of_le_of_lt hle hnew)

/-- An object becomes an array, and a line comes in behind it. The last line has moved and stays;
the number in the array has not moved, but the state that reaches it is another one. -/
theorem partial_pass_keeps_moved :
    let requests : List Request := [.render [['{'], ['1'], ['}'], ['2']] ⟨0, 3⟩ .partly]
    let r := (ofTokenizer Json.language.tokenizer 4).run requests
    let before := r.lines.map Line.text
    let now := [['['], ['1'], [']'], ['0'], ['2']]
    let lines := (r.render now ⟨0, 4⟩ .partly).2.lines
    let start : Json.State := {}
    let moved := Line.rendered 4 ['2'] start ⟨[⟨.number, ['2']⟩], start⟩
    let array : Json.State := { brackets := [.array] }
    let renewed := Line.rendered 6 ['1'] array ⟨[⟨.number, ['1']⟩], array⟩
    Fingerprint.Separates (statesMet Json.language.tokenizer
      (requests ++ [.render now ⟨0, 4⟩ .partly])) ∧
    r.dirtyCount = 0 ∧
    (lines[4]? = some moved ∧ 4 ≤ (⟨0, 4⟩ : Window).last ∧ r.lines[3]? = some moved ∧
      Stays Json.language.tokenizer before now 3 4) ∧
    (lines[1]? = some renewed ∧ 1 ≤ (⟨0, 4⟩ : Window).last ∧
      (∀ p, ¬ Stays Json.language.tokenizer before now p 1) ∧ ∀ m ∈ r.lines, m.id ≠ renewed.id) := by
  intro requests r before now lines start moved array renewed
  have hsep : Fingerprint.Separates (statesMet Json.language.tokenizer
      (requests ++ [.render now ⟨0, 4⟩ .partly])) := by decide +kernel
  have hclean : r.dirtyCount = 0 := by decide +kernel
  have hmoved : lines[4]? = some moved := by decide +kernel
  have hrenewed : lines[1]? = some renewed := by decide +kernel
  have hold : r.lines[3]? = some moved := by decide +kernel
  have hpass := (partial_pass_keeps Json.language.tokenizer 4 requests now ⟨0, 4⟩ hsep hclean).1
  have hgone : ∀ p, ¬ Stays Json.language.tokenizer before now p 1 := by
    intro p hstays
    have hpair : Diff.Pairs (Diff.between before now) 1 1 :=
      ⟨[.modified], [.modified, .added, .same], by decide +kernel, rfl, rfl⟩
    obtain rfl : p = 1 := hstays.1.unique hpair
    have hstate : Json.language.tokenizer.behind {} (before.take 1) ≠
        Json.language.tokenizer.behind {} (now.take 1) := by decide +kernel
    exact hstate hstays.2
  have hstays := (((hpass 4 moved hmoved (by decide)).1 3 moved hold).1).mp rfl
  have hfresh := (hpass 1 renewed hrenewed (by decide)).2 hgone _ (List.prefix_refl _)
  exact ⟨hsep, hclean, ⟨hmoved, by decide, hold, hstays⟩, hrenewed, by decide, hgone, hfresh⟩

end Renderer
end Highlight
