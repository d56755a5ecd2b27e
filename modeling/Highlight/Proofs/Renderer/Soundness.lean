import Highlight.Json.Language
import Highlight.Proofs.Renderer.Run
import Highlight.Proofs.Renderer.Step
import Mathlib.Data.List.Infix
/-! # Soundness of incremental rendering

Whatever a renderer went through before, a pass leaves every line up to the end of its window as
the tokenizer reads it in the whole text, as long as no two of the states that readings of the
texts go through have the same fingerprint. The invariant: each cache entry is what the tokenizer
answers, and so is each line that is not out of date, for a state with the fingerprint that the line
remembers; and lines hand over no state but those.
-/
namespace Highlight

variable {σ : Type}

/-- No two of the states are taken for the same. -/
def Fingerprint.Separates [Fingerprint σ] (states : List σ) : Prop :=
  ∀ st ∈ states, ∀ st' ∈ states, of st = of st' → st = st'

instance [DecidableEq σ] [Fingerprint σ] (states : List σ) :
    Decidable (Fingerprint.Separates states) :=
  inferInstanceAs (Decidable (∀ st ∈ states, ∀ st' ∈ states, _ → st = st'))

namespace Tokenizer

/-- The states behind the first lines, from none of them to all. -/
def states (T : Tokenizer σ) (lines : List Text) : List σ := lines.inits.map (T.behind T.initial)

theorem behind_take_mem (T : Tokenizer σ) (lines : List Text) (n : Nat) :
    T.behind T.initial (lines.take n) ∈ T.states lines :=
  List.mem_map_of_mem ((List.mem_inits _ _).mpr (List.take_prefix n lines))

end Tokenizer

def Line.result (l : Line σ) : LineTokens σ := ⟨l.tokens, l.outbound⟩

/-- The line hands over one of the states, and is out of date or what the tokenizer answers for one
of them that it remembers. -/
structure Line.Sound [Fingerprint σ] (T : Tokenizer σ) (states : List σ) (l : Line σ) : Prop where
  outbound_mem : l.outbound ∈ states
  read : l.dirty = false →
    ∃ st ∈ states, Fingerprint.of st = l.inboundFingerprint ∧ l.result = T.tokenize l.text st

namespace Line

variable [Fingerprint σ] {T : Tokenizer σ} {states : List σ} {l : Line σ}

private theorem Sound.markDirty (h : l.Sound T states) : l.markDirty.Sound T states := by
  refine ⟨h.outbound_mem, fun hclean => ?_⟩
  contradiction

private theorem Sound.reachedBy (h : l.Sound T states) (inbound : σ) :
    (l.reachedBy inbound).Sound T states := by
  rcases l.reachedBy_eq inbound with heq | heq
  · rw [heq]
    exact h
  · rw [heq]
    exact h.markDirty

/-- Of the states only the one that reaches the line has the fingerprint that it remembers. -/
theorem Sound.result_eq (h : l.Sound T states) (hsep : Fingerprint.Separates states)
    (hclean : l.dirty = false) {inbound : σ} (hin : inbound ∈ states)
    (hsame : l.inboundFingerprint = Fingerprint.of inbound) :
    l.result = T.tokenize l.text inbound := by
  obtain ⟨st, hst, hof, hresult⟩ := h.read hclean
  obtain rfl : st = inbound := hsep st hst inbound hin (hof.trans hsame)
  exact hresult

theorem handover_mem {st : σ} {lines : List (Line σ)} (hst : st ∈ states)
    (h : ∀ l ∈ lines, l.Sound T states) : handover st lines ∈ states := by
  rcases List.eq_nil_or_concat lines with rfl | ⟨above, l, rfl⟩
  · exact hst
  · rw [List.concat_eq_append] at h ⊢
    rw [handover, List.getLast?_concat]
    exact (h l (by simp)).outbound_mem

end Line

namespace Cache

def Sound (T : Tokenizer σ) (c : Cache σ) : Prop :=
  ∀ e ∈ c.entries, e.result = T.tokenize e.text e.inbound

theorem sound_ofCapacity (T : Tokenizer σ) (capacity : Nat) : (ofCapacity capacity).Sound T := by
  intro e he
  simp [ofCapacity] at he

theorem sound_clear (T : Tokenizer σ) (c : Cache σ) : c.clear.Sound T := by
  intro e he
  simp [clear] at he

private theorem Sound.evict {T : Tokenizer σ} {c : Cache σ} (h : c.Sound T) : c.evict.Sound T := by
  intro e he
  exact h e (List.mem_of_mem_take he)

variable [DecidableEq σ]

private theorem isFor_iff {text : Text} {inbound : σ} {e : CacheEntry σ} :
    isFor text inbound e = true ↔ e.text = text ∧ e.inbound = inbound := by
  simp [isFor]

private theorem Sound.others {T : Tokenizer σ} {c : Cache σ} (h : c.Sound T) (text : Text)
    (inbound : σ) : ∀ e ∈ c.others text inbound, e.result = T.tokenize e.text e.inbound := by
  intro e he
  exact h e (List.mem_filter.mp he).1

private theorem Sound.store {T : Tokenizer σ} {c : Cache σ} (h : c.Sound T) (text : Text)
    (inbound : σ) : (c.store text inbound (T.tokenize text inbound)).Sound T := by
  have hroom : (if (c.find? text inbound).isNone && c.capacity ≤ c.size then c.evict
      else c).Sound T := by
    split
    · exact h.evict
    · exact h
  intro e he
  rcases List.mem_cons.mp he with rfl | he
  · rfl
  · exact hroom.others text inbound e he

private theorem Sound.lookup_none {T : Tokenizer σ} {c c' : Cache σ} (h : c.Sound T) {text : Text}
    {inbound : σ} (hlookup : c.lookup text inbound = (none, c')) : c'.Sound T := by
  unfold lookup at hlookup
  split at hlookup
  · rw [← (Prod.mk.inj hlookup).2]
    exact h
  · simp at hlookup

/-- A hit is what the tokenizer answers. -/
theorem Sound.lookup_some {T : Tokenizer σ} {c c' : Cache σ} (h : c.Sound T) {text : Text}
    {inbound : σ} {result : LineTokens σ}
    (hlookup : c.lookup text inbound = (some result, c')) :
    result = T.tokenize text inbound ∧ c'.Sound T := by
  unfold lookup at hlookup
  split at hlookup
  · simp at hlookup
  · rename_i e hfind
    have hmem : e ∈ c.entries := List.mem_of_find?_eq_some hfind
    have hkey := isFor_iff.mp (List.find?_some hfind)
    obtain ⟨hresult, hcache⟩ := Prod.mk.inj hlookup
    have hentry : e.result = T.tokenize text inbound := by
      rw [h e hmem, hkey.1, hkey.2]
    constructor
    · exact (Option.some.inj hresult).symm.trans hentry
    · rw [← hcache]
      intro d hd
      rcases List.mem_cons.mp hd with rfl | hd
      · exact h d hmem
      · exact h.others text inbound d hd

end Cache

namespace Renderer

/-- The states that a reading of the request's texts goes through. -/
def Request.states (T : Tokenizer σ) : Request → List σ
  | .render texts _ _ => T.states texts
  | .markDirtyFrom _ | .reset => []

/-- The states that meet in a run: the initial one and those of the texts of all requests. -/
def statesMet (T : Tokenizer σ) (requests : List Request) : List σ :=
  T.initial :: requests.flatMap (Request.states T)

theorem states_subset_met (T : Tokenizer σ) {requests : List Request} {request : Request}
    (h : request ∈ requests) : request.states T ⊆ statesMet T requests := by
  intro st hst
  exact List.mem_cons_of_mem _ (List.mem_flatMap_of_mem h hst)

theorem states_subset_met_render (T : Tokenizer σ) (requests : List Request) (texts : List Text)
    (window : Window) (mode : RenderMode) :
    T.states texts ⊆ statesMet T (requests ++ [.render texts window mode]) := by
  have hlast : .render texts window mode ∈ requests ++ [.render texts window mode] := by simp
  exact states_subset_met T hlast

/-- With a sound cache it makes no difference where a reading comes from. -/
theorem Pass.read_eq [DecidableEq σ] [Fingerprint σ] {T : Tokenizer σ} {p : Pass σ}
    (h : p.cache.Sound T) (text : Text) (inbound : σ) :
    ∃ cache stats, cache.Sound T ∧ p.read T text inbound =
      (.rendered (p.lastId + 1) text inbound (T.tokenize text inbound),
        { cache, lastId := p.lastId + 1, stats }) := by
  unfold read
  split
  · rename_i result cache hlookup
    obtain ⟨rfl, hcache⟩ := h.lookup_some hlookup
    exact ⟨cache, _, hcache, rfl⟩
  · rename_i cache hlookup
    exact ⟨_, _, (h.lookup_none hlookup).store text inbound, rfl⟩

/-- The cache and the lines are what the tokenizer answers. -/
structure Sound [Fingerprint σ] (states : List σ) (r : Renderer σ) : Prop where
  cache : r.cache.Sound r.tokenizer
  lines : ∀ l ∈ r.lines, l.Sound r.tokenizer states

variable [DecidableEq σ] [Fingerprint σ]

section LineStep

variable {T : Tokenizer σ} {window : Window} {mode : RenderMode} {index : Nat} {text : Text}
  {inbound : σ} {p : Pass σ} {old? : Option (Line σ)} {next : Line σ × Pass σ}

private theorem LineStep.cache_sound (h : LineStep T window mode index text inbound p old? next)
    (hcache : p.cache.Sound T) : next.2.cache.Sound T := by
  cases h with
  | @kept old reuses settled => simpa [Pass.countReused] using hcache
  | @refreshed old reuses dirty needed =>
    have hmeet : ((p.meet old inbound).countDirty).cache.Sound T := by
      simpa [Pass.countDirty] using hcache
    obtain ⟨cache, stats, hsound, hread⟩ := Pass.read_eq hmeet text inbound
    rw [hread]
    exact hsound
  | left new notFull below => exact hcache
  | read new needed =>
    obtain ⟨cache, stats, hsound, hread⟩ := Pass.read_eq hcache text inbound
    rw [hread]
    exact hsound

private theorem LineStep.origin (h : LineStep T window mode index text inbound p old? next)
    (hcache : p.cache.Sound T) :
    (∃ old, old? = some old ∧ next.1 = old.reachedBy inbound) ∨
      next.1 = .placeholder next.1.id text inbound ∨
      (mode = .full ∨ index ≤ window.last) ∧
        next.1 = .rendered next.1.id text inbound (T.tokenize text inbound) := by
  cases h with
  | @kept old reuses settled => exact .inl ⟨old, rfl, rfl⟩
  | @refreshed old reuses dirty needed =>
    have hmeet : ((p.meet old inbound).countDirty).cache.Sound T := by
      simpa [Pass.countDirty] using hcache
    obtain ⟨cache, stats, -, hread⟩ := Pass.read_eq hmeet text inbound
    have hle : index ≤ window.last := by simpa [Window.isBelow] using needed
    rw [hread]
    exact .inr (.inr ⟨.inr hle, rfl⟩)
  | left new notFull below => exact .inr (.inl rfl)
  | read new needed =>
    obtain ⟨cache, stats, -, hread⟩ := Pass.read_eq hcache text inbound
    rw [hread]
    exact .inr (.inr ⟨needed.imp_right fun hle => by simpa [Window.isBelow] using hle, rfl⟩)

variable {states : List σ}

/-- Out of one of the states, a step makes a line that is sound. -/
theorem LineStep.sound (h : LineStep T window mode index text inbound p old? next)
    (hcache : p.cache.Sound T) (hold : ∀ old ∈ old?, old.Sound T states) (hin : inbound ∈ states)
    (hout : mode = .full ∨ index ≤ window.last → (T.tokenize text inbound).outbound ∈ states) :
    next.1.Sound T states := by
  rcases h.origin hcache with ⟨old, hsome, heq⟩ | heq | ⟨hneed, heq⟩
  · rw [heq]
    exact (hold old hsome).reachedBy inbound
  · rw [heq]
    refine ⟨hin, fun hclean => ?_⟩
    contradiction
  · rw [heq]
    exact ⟨hout hneed, fun _ => ⟨inbound, hin, rfl, rfl⟩⟩

private theorem LineStep.result_eq (h : LineStep T window mode index text inbound p old? next)
    (hsep : Fingerprint.Separates states) (hcache : p.cache.Sound T)
    (hold : ∀ old ∈ old?, old.text = text ∧ old.Sound T states) (hin : inbound ∈ states)
    (hneed : mode = .full ∨ index ≤ window.last) : next.1.result = T.tokenize text inbound := by
  have hclean := h.clean hneed
  rcases h.origin hcache with ⟨old, hsome, heq⟩ | heq | ⟨-, heq⟩
  · rw [heq] at hclean ⊢
    obtain ⟨hsame, hof⟩ := Line.reachedBy_of_clean hclean
    rw [hsame] at hclean ⊢
    obtain ⟨htext, hsound⟩ := hold old hsome
    rw [hsound.result_eq hsep hclean hin hof, htext]
  · rw [heq] at hclean
    contradiction
  · rw [heq]
    rfl

end LineStep

variable {states : List σ} {r : Renderer σ}

omit [DecidableEq σ] in
theorem sound_ofTokenizer (T : Tokenizer σ) (capacity : Nat) :
    (ofTokenizer T capacity).Sound states :=
  ⟨Cache.sound_ofCapacity T capacity, by simp [ofTokenizer]⟩

private theorem renderLines_cache_sound {T : Tokenizer σ} (window : Window) (mode : RenderMode)
    (work : List (Text × Option (Line σ))) (index : Nat) (inbound : σ) {p : Pass σ}
    (h : p.cache.Sound T) :
    (renderLines T window mode index inbound p work).2.cache.Sound T := by
  induction work generalizing index inbound p with
  | nil => exact h
  | cons w work ih =>
    exact ih (index + 1) _ ((renderLine_step T window mode index w.1 w.2 inbound p).cache_sound h)

private theorem Sound.step_at (h : r.Sound states) (texts : List Text) (window : Window)
    (mode : RenderMode) {i : Nat} {l : Line σ}
    (hl : (r.pass texts window mode).1[i]? = some l) :
    ∃ text old? q next, texts[i]? = some text ∧ q.cache.Sound r.tokenizer ∧
      (∀ old ∈ old?, old.text = text ∧ old.Sound r.tokenizer states) ∧
      LineStep r.tokenizer window mode i text
        (Line.handover r.tokenizer.initial ((r.pass texts window mode).1.take i)) q old? (l, next) := by
  obtain ⟨w, q, next, hw, hcache, hstep⟩ := r.pass_at (I := fun q => q.cache.Sound r.tokenizer)
    (fun index text old? inbound p hp =>
      (renderLine_step r.tokenizer window mode index text old? inbound p).cache_sound hp) h.cache hl
  refine ⟨w.1, w.2, q, next, ?_, hcache, ?_, hstep⟩
  · rw [← r.work_texts texts, List.getElem?_map, hw]
    rfl
  · intro old hold
    obtain ⟨hmem, htext⟩ := old_of_mem_work (List.mem_of_getElem? hw) old hold
    exact ⟨htext, h.lines old hmem⟩

/-- What reaches a line in a pass over the texts: one of the states, and, where the line is needed,
the one behind the texts above it. -/
structure Reaches (T : Tokenizer σ) (states : List σ) (texts : List Text) (needed : Prop)
    (index : Nat) (st : σ) : Prop where
  mem : st ∈ states
  behind : needed → st = T.behind T.initial (texts.take index)

section

variable {texts : List Text}

/-- A line is sound if what reaches it is, and hands over the state behind its text if it is
needed. -/
theorem Sound.line_at (h : r.Sound states) (hsep : Fingerprint.Separates states)
    (htexts : r.tokenizer.states texts ⊆ states) {window : Window} {mode : RenderMode} {i : Nat}
    {l : Line σ} (hl : (r.pass texts window mode).1[i]? = some l)
    (hreach : Reaches r.tokenizer states texts (mode = .full ∨ i ≤ window.last) i
      (Line.handover r.tokenizer.initial ((r.pass texts window mode).1.take i))) :
    l.Sound r.tokenizer states ∧ (mode = .full ∨ i ≤ window.last →
      (r.tokenizer.document texts)[i]? = some l.result ∧
      l.outbound = r.tokenizer.behind r.tokenizer.initial (texts.take (i + 1))) := by
  obtain ⟨text, old?, q, next, htext, hcache, hold, hstep⟩ := h.step_at texts window mode hl
  constructor
  · refine hstep.sound hcache (fun old hmem => (hold old hmem).2) hreach.mem fun hneed => ?_
    rw [hreach.behind hneed, ← r.tokenizer.behind_take_succ _ htext]
    exact htexts (r.tokenizer.behind_take_mem texts (i + 1))
  · intro hneed
    have hresult : l.result = r.tokenizer.tokenize text _ :=
      hstep.result_eq hsep hcache hold hreach.mem hneed
    rw [hreach.behind hneed] at hresult
    constructor
    · rw [Tokenizer.document, Tokenizer.getElem?_thread, htext, hresult]
      rfl
    · rw [r.tokenizer.behind_take_succ _ htext]
      exact congrArg LineTokens.outbound hresult

theorem Sound.reaches (h : r.Sound states) (hsep : Fingerprint.Separates states)
    (htexts : r.tokenizer.states texts ⊆ states) (window : Window) (mode : RenderMode) {i : Nat}
    (hi : i ≤ (r.pass texts window mode).1.length) :
    Reaches r.tokenizer states texts (mode = .full ∨ i ≤ window.last) i
      (Line.handover r.tokenizer.initial ((r.pass texts window mode).1.take i)) := by
  induction i with
  | zero => exact ⟨htexts (r.tokenizer.behind_take_mem texts 0), fun _ => rfl⟩
  | succ i ih =>
    -- Where a line is needed, so are the lines above it.
    have hl := List.getElem?_eq_getElem (Nat.lt_of_succ_le hi)
    obtain ⟨hsound, hneeded⟩ := h.line_at hsep htexts hl (ih (Nat.le_of_succ_le hi))
    rw [Line.handover_take_succ _ hl]
    exact ⟨hsound.outbound_mem,
      fun hneed => (hneeded (hneed.imp_right Nat.le_of_succ_le)).2⟩

theorem Sound.render (h : r.Sound states) (hsep : Fingerprint.Separates states)
    (htexts : r.tokenizer.states texts ⊆ states) (window : Window) (mode : RenderMode) :
    (r.render texts window mode).2.Sound states := by
  constructor
  · exact renderLines_cache_sound window mode (r.work texts) 0 r.tokenizer.initial h.cache
  · intro l hl
    obtain ⟨i, hi, rfl⟩ := List.mem_iff_getElem.mp hl
    have hreach := h.reaches hsep htexts window mode (Nat.le_of_lt hi)
    exact (h.line_at hsep htexts (List.getElem?_eq_getElem hi) hreach).1

/-- After a pass the needed lines are as in a reading of the whole text. -/
theorem Sound.render_current (h : r.Sound states) (hsep : Fingerprint.Separates states)
    (htexts : r.tokenizer.states texts ⊆ states) {window : Window} {mode : RenderMode} {i : Nat}
    {l : Line σ} (hl : (r.render texts window mode).2.lines[i]? = some l)
    (hneed : mode = .full ∨ i ≤ window.last) :
    (r.tokenizer.document texts)[i]? = some l.result := by
  have hi : i < (r.pass texts window mode).1.length := (List.getElem?_eq_some_iff.mp hl).1
  exact ((h.line_at hsep htexts hl (h.reaches hsep htexts window mode (Nat.le_of_lt hi))).2 hneed).1

end

omit [DecidableEq σ] in
theorem Sound.markDirtyFrom (h : r.Sound states) (index : Nat) :
    (r.markDirtyFrom index).Sound states := by
  constructor
  · exact h.cache
  · intro l hl
    rcases List.mem_append.mp hl with hl | hl
    · exact h.lines l (List.mem_of_mem_take hl)
    · obtain ⟨m, hm, rfl⟩ := List.mem_map.mp hl
      exact (h.lines m (List.mem_of_mem_drop hm)).markDirty

private theorem Sound.perform (h : r.Sound states) (hsep : Fingerprint.Separates states)
    {request : Request} (hmet : request.states r.tokenizer ⊆ states) :
    (r.perform request).Sound states := by
  cases request with
  | render texts window mode => exact h.render hsep hmet window mode
  | markDirtyFrom index => exact h.markDirtyFrom index
  | reset => exact ⟨Cache.sound_clear r.tokenizer r.cache, by simp [Renderer.perform, reset]⟩

private theorem Sound.run (h : r.Sound states) (hsep : Fingerprint.Separates states)
    {requests : List Request}
    (hmet : ∀ request ∈ requests, request.states r.tokenizer ⊆ states) :
    (r.run requests).Sound states := by
  induction requests generalizing r with
  | nil => exact h
  | cons request requests ih =>
    refine ih (h.perform hsep (hmet request List.mem_cons_self)) fun later hlater => ?_
    rw [perform_tokenizer]
    exact hmet later (List.mem_cons_of_mem request hlater)

theorem sound_run (T : Tokenizer σ) (capacity : Nat) (requests : List Request)
    (hsep : Fingerprint.Separates states)
    (hmet : ∀ request ∈ requests, request.states T ⊆ states) :
    ((ofTokenizer T capacity).run requests).Sound states :=
  (sound_ofTokenizer T capacity).run hsep hmet

theorem sound_run_append (T : Tokenizer σ) (capacity : Nat) (requests later : List Request)
    (hsep : Fingerprint.Separates (statesMet T (requests ++ later))) :
    ((ofTokenizer T capacity).run requests).Sound (statesMet T (requests ++ later)) :=
  sound_run T capacity requests hsep fun _ hmem =>
    states_subset_met T (List.mem_append_left later hmem)

/-- After any requests, a pass leaves one line for each text, and those up to the end of the window,
or all of them in a full pass, are up to date: the tokens and the state behind them are those of a
reading of the text up to there that knows no cache and nothing of the past. No two of the states
that meet are taken for the same. -/
theorem render_upToDate (T : Tokenizer σ) (capacity : Nat) (requests : List Request)
    (texts : List Text) (window : Window) (mode : RenderMode)
    (hsep : Fingerprint.Separates
      (statesMet T (requests ++ [.render texts window mode]))) :
    let lines := (((ofTokenizer T capacity).run requests).render texts window mode).2.lines
    lines.map Line.text = texts ∧
      ∀ (i : Nat) (l : Line σ), lines[i]? = some l → mode = .full ∨ i ≤ window.last →
        l.dirty = false ∧ (T.document (texts.take (i + 1))).getLast? = some l.result := by
  intro lines
  let r := (ofTokenizer T capacity).run requests
  have hT : r.tokenizer = T := run_tokenizer _ requests
  have hsound : r.Sound _ := sound_run_append T capacity requests _ hsep
  have hmet : r.tokenizer.states texts ⊆ statesMet T (requests ++ [.render texts window mode]) := by
    rw [hT]
    exact states_subset_met_render T requests texts window mode
  have htexts : lines.map Line.text = texts := r.render_texts texts window mode
  constructor
  · exact htexts
  · intro i l hl hneed
    have hi : i < texts.length := by
      rw [← htexts, List.length_map]
      exact (List.getElem?_eq_some_iff.mp hl).1
    have hcurrent := hsound.render_current hsep hmet hl hneed
    rw [hT] at hcurrent
    rw [T.getLast?_document_take hi]
    exact ⟨r.render_clean texts window mode i l hl hneed, hcurrent⟩

/-- An object that has moved into an array is read again, as the second line of the text. -/
theorem render_upToDate_moved :
    let before : List Request := [.render [['{'], ['1']] ⟨0, 0⟩ .partly, .markDirtyFrom 1]
    let texts : List Text := [['['], ['{'], ['1']]
    let lines := (((ofTokenizer Json.language.tokenizer 1).run before).render
      texts ⟨0, 1⟩ .partly).2.lines
    let l := Line.rendered 4 ['{'] { brackets := [.array] }
      ⟨[⟨.bracket, ['{']⟩], { brackets := [.object, .array], inObjectKey := true }⟩
    Fingerprint.Separates
        (statesMet Json.language.tokenizer (before ++ [.render texts ⟨0, 1⟩ .partly])) ∧
      lines[1]? = some l ∧ 1 ≤ (⟨0, 1⟩ : Window).last ∧ l.dirty = false ∧
      (Json.language.tokenizer.document [['['], ['{']]).getLast? = some l.result := by
  intro before texts lines l
  have hsep : Fingerprint.Separates
      (statesMet Json.language.tokenizer (before ++ [.render texts ⟨0, 1⟩ .partly])) := by
    decide +kernel
  have hline : lines[1]? = some l := by decide +kernel
  have hneed : 1 ≤ (⟨0, 1⟩ : Window).last := by decide
  have hcurrent := (render_upToDate Json.language.tokenizer 1 before texts ⟨0, 1⟩ .partly hsep).2
    1 l hline (.inr hneed)
  exact ⟨hsep, hline, hneed, hcurrent⟩

end Renderer
end Highlight
