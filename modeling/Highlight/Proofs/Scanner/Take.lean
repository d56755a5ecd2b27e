import Highlight.Proofs.Scanner.Step
/-! # What a pattern takes

A pattern takes a text in front of some rest if its match there is that text. Which text a pattern
takes depends on the rest as well, because repetition goes on for as long as it can. For patterns
built by sequence and choice it is said piece by piece; and where only the characters of a match
matter, `Within` bounds them.
-/
namespace Highlight

/-- The text does not start with a character of the class. -/
def Text.Stops (p : Char → Bool) (t : Text) : Prop := ∀ c, t.head? = some c → p c = false

theorem Text.stops_nil (p : Char → Bool) : Stops p [] := by
  intro c hc
  contradiction

theorem Text.stops_cons {p : Char → Bool} {c : Char} {cs : Text} :
    Stops p (c :: cs) ↔ p c = false := by
  simp [Stops]

private theorem Text.Stops.takeWhile {p : Char → Bool} {t : Text} (h : t.Stops p) :
    t.takeWhile p = [] := by
  cases t with
  | nil => rfl
  | cons c cs => simp [stops_cons.mp h]

theorem Text.stops_append {p : Char → Bool} {t : Text} (hne : t ≠ []) (h : ∀ c ∈ t, p c = false)
    (r : Text) : Stops p (t ++ r) := by
  obtain ⟨c, cs, rfl⟩ := List.exists_cons_of_ne_nil hne
  exact stops_cons.mpr (h c List.mem_cons_self)

theorem Text.Stops.mono {p q : Char → Bool} {t : Text} (h : t.Stops p)
    (hpq : ∀ c, p c = false → q c = false) : t.Stops q := fun c hc => hpq c (h c hc)

/-- Characters of a class that are taken from a text and from what follows it are all from the text,
if what follows does not start with one. -/
theorem Text.Stops.le_length {p : Char → Bool} {t u : Text} (hu : u.Stops p) {n : Nat}
    (hn : n ≤ (t ++ u).length) (h : ∀ c ∈ (t ++ u).take n, p c = true) : n ≤ t.length := by
  rcases Nat.lt_or_ge t.length n with hlt | hle
  · cases u with
    | nil => simpa using hn
    | cons c u =>
      have hget : (t ++ c :: u)[t.length]? = some c := by simp
      have hmem : c ∈ (t ++ c :: u).take n :=
        List.mem_of_getElem? ((List.getElem?_take_of_lt hlt).trans hget)
      have hc := h c hmem
      rw [stops_cons.mp hu] at hc
      contradiction
  · exact hle

theorem Text.stops_dropWhile_append (p : Char → Bool) (t : Text) {r : Text} (h : r.Stops p) :
    Stops p (t.dropWhile p ++ r) := by
  induction t with
  | nil => exact h
  | cons c cs ih =>
    by_cases hc : p c = true
    · rwa [List.dropWhile_cons_of_pos hc]
    · rw [List.dropWhile_cons_of_neg hc]
      exact stops_cons.mpr (by simpa using hc)

namespace Pattern

def Takes (p : Pattern) (t rest : Text) : Prop := p (t ++ rest) = some t.length

variable {p q : Pattern} {f : Char → Bool} {t u r : Text}

theorem one_eq_none (h : r.Stops f) : one f r = none := by
  cases r with
  | nil => rfl
  | cons c cs => simp [one, Text.stops_cons.mp h]

theorem one_eq_some {s : Text} {n : Nat} (h : one f s = some n) :
    n = 1 ∧ ∃ c cs, s = c :: cs ∧ f c = true := by
  cases s with
  | nil => contradiction
  | cons c cs =>
    by_cases hc : f c = true
    · exact ⟨by simpa [one, hc, eq_comm] using h, c, cs, rfl, hc⟩
    · simp [one, hc] at h

theorem takes_one {c : Char} (h : f c = true) (r : Text) : (one f).Takes [c] r := by
  simp [Takes, one, h]

theorem takes_char (c : Char) (r : Text) : (char c).Takes [c] r := takes_one (by simp) r

theorem literal_eq_none {c d : Char} (h : d ≠ c) (t r : Text) :
    literal (c :: t) (d :: r) = none := by
  have hprefix : (c :: t).isPrefixOf (d :: r) = false := by
    simp [List.isPrefixOf, h.symm]
  simp [literal, hprefix]

theorem seq_eq_none (h : p r = none) : seq p q r = none := by
  simp [seq, h]

theorem Takes.seq_eq_none (hp : p.Takes t r) (hq : q r = none) : seq p q (t ++ r) = none := by
  have hp : p (t ++ r) = some t.length := hp
  simp [seq, hp, hq]

theorem Takes.seq (hp : p.Takes t (u ++ r)) (hq : q.Takes u r) : (seq p q).Takes (t ++ u) r := by
  have hp : p (t ++ (u ++ r)) = some t.length := hp
  have hq : q (u ++ r) = some u.length := hq
  simp [Takes, Pattern.seq, hp, hq]

theorem takes_many (ht : ∀ c ∈ t, f c = true) (hr : r.Stops f) : (many f).Takes t r := by
  simp [Takes, many, List.takeWhile_append_of_pos ht, hr.takeWhile]

theorem many1_eq_none (h : r.Stops f) : many1 f r = none := seq_eq_none (one_eq_none h)

theorem takes_many1 (hne : t ≠ []) (ht : ∀ c ∈ t, f c = true) (hr : r.Stops f) :
    (many1 f).Takes t r := by
  obtain ⟨c, cs, rfl⟩ := List.exists_cons_of_ne_nil hne
  have hone : (one f).Takes [c] (cs ++ r) := takes_one (ht c List.mem_cons_self) _
  exact hone.seq (takes_many (fun d hd => ht d (List.mem_cons_of_mem c hd)) hr)

theorem forall_mem_run {c : Char} (hc : f c = true) (cs : Text) :
    ∀ d ∈ c :: cs.takeWhile f, f d = true := by
  intro d hd
  rcases List.mem_cons.mp hd with rfl | hd
  · exact hc
  · exact List.all_eq_true.mp List.all_takeWhile d hd

theorem run_append_rest (f : Char → Bool) (c : Char) (cs : Text) :
    c :: cs = c :: cs.takeWhile f ++ cs.dropWhile f := by
  rw [List.cons_append, List.takeWhile_append_dropWhile]

/-- A run at the start of a text, in front of something with which it cannot go on. -/
theorem takes_run {c : Char} (hc : f c = true) (cs : Text) (hr : r.Stops f) :
    (many1 f).Takes (c :: cs.takeWhile f) (cs.dropWhile f ++ r) :=
  takes_many1 (by simp) (forall_mem_run hc cs) (Text.stops_dropWhile_append f cs hr)

theorem Takes.optional (h : p.Takes t r) : (optional p).Takes t r := by
  have h : p (t ++ r) = some t.length := h
  simp [Takes, Pattern.optional, h]

theorem takes_optional_nil (h : p r = none) : (optional p).Takes [] r := by
  simp [Takes, Pattern.optional, h]

theorem Takes.alt_left (h : p.Takes t r) (q : Pattern) : (alt p q).Takes t r := by
  have h : p (t ++ r) = some t.length := h
  simp [Takes, alt, h]

theorem Takes.alt_right (h : q.Takes t r) (hp : p (t ++ r) = none) : (alt p q).Takes t r := by
  have h : q (t ++ r) = some t.length := h
  simp [Takes, alt, hp, h]

theorem takes_all_nil (r : Text) : (all []).Takes [] r := rfl

theorem Takes.any_last (h : p.Takes t r) : (any [p]).Takes t r := h.alt_left _

theorem finish_eq_some {n : Nat} (h : finish t = some n) : t = [] ∧ n = 0 := by
  cases t with
  | nil => exact ⟨rfl, (Option.some.inj h).symm⟩
  | cons c cs => contradiction

theorem seq_eq_some {n : Nat} (h : seq p q t = some n) :
    ∃ k m, p t = some k ∧ q (t.drop k) = some m ∧ n = k + m := by
  obtain ⟨k, hk, h⟩ := Option.bind_eq_some_iff.mp h
  obtain ⟨m, hm, h⟩ := Option.bind_eq_some_iff.mp h
  exact ⟨k, m, hk, hm, (Option.some.inj h).symm⟩

theorem alt_eq_some {n : Nat} (h : alt p q t = some n) : p t = some n ∨ q t = some n := by
  cases hp : p t with
  | none => exact .inr (by simpa [alt, hp] using h)
  | some m => exact .inl (by simpa [alt, hp] using h)

/-- All characters of every match are of the class. -/
def Within (ok : Char → Bool) (p : Pattern) : Prop :=
  ∀ s n, p s = some n → n ≤ s.length ∧ ∀ c ∈ s.take n, ok c = true

/-- Every match has a character. -/
def Moves (p : Pattern) : Prop := ∀ s, p s ≠ some 0

variable {ok : Char → Bool}

theorem within_one (h : ∀ c, f c = true → ok c = true) : Within ok (one f) := by
  intro s n hn
  obtain ⟨rfl, c, cs, rfl, hc⟩ := one_eq_some hn
  simpa using h c hc

theorem within_char {c : Char} (h : ok c = true) : Within ok (char c) := by
  apply within_one
  intro d hd
  rwa [beq_iff_eq.mp hd]

private theorem within_run (h : ∀ c, f c = true → ok c = true) (s : Text) (m : Nat) :
    ((s.take m).takeWhile f).length ≤ s.length ∧
      ∀ c ∈ s.take ((s.take m).takeWhile f).length, ok c = true := by
  have hprefix : (s.take m).takeWhile f <+: s :=
    (List.takeWhile_prefix f).trans (List.take_prefix m s)
  constructor
  · exact hprefix.length_le
  · intro c hc
    rw [← List.prefix_iff_eq_take.mp hprefix] at hc
    exact h c (List.all_eq_true.mp List.all_takeWhile c hc)

theorem within_between (lo hi : Nat) (h : ∀ c, f c = true → ok c = true) :
    Within ok (between lo hi f) := by
  intro s n hn
  by_cases hlo : lo ≤ ((s.take hi).takeWhile f).length
  · obtain rfl : ((s.take hi).takeWhile f).length = n := by simpa [between, hlo] using hn
    exact within_run h s hi
  · simp [between, hlo] at hn

theorem within_many (h : ∀ c, f c = true → ok c = true) : Within ok (many f) := by
  intro s n hn
  obtain rfl : (s.takeWhile f).length = n := Option.some.inj hn
  have hrun := within_run h s s.length
  rwa [List.take_length] at hrun

theorem Within.seq (hp : Within ok p) (hq : Within ok q) : Within ok (seq p q) := by
  intro s n hn
  obtain ⟨k, m, hk, hm, rfl⟩ := seq_eq_some hn
  obtain ⟨hklen, hkall⟩ := hp s k hk
  obtain ⟨hmlen, hmall⟩ := hq (s.drop k) m hm
  rw [List.length_drop] at hmlen
  constructor
  · omega
  · intro c hc
    rw [List.take_add] at hc
    rcases List.mem_append.mp hc with hc | hc
    · exact hkall c hc
    · exact hmall c hc

theorem within_many1 (h : ∀ c, f c = true → ok c = true) : Within ok (many1 f) :=
  (within_one h).seq (within_many h)

theorem Within.alt (hp : Within ok p) (hq : Within ok q) : Within ok (alt p q) := by
  intro s n hn
  rcases alt_eq_some hn with hn | hn
  · exact hp s n hn
  · exact hq s n hn

theorem within_all_nil : Within ok (all []) := by
  intro s n hn
  obtain rfl : 0 = n := Option.some.inj hn
  simp

theorem moves_one (f : Char → Bool) : Moves (one f) := by
  intro s hs
  obtain ⟨hzero, -⟩ := one_eq_some hs
  contradiction

theorem moves_between {lo : Nat} (h : 0 < lo) (hi : Nat) (f : Char → Bool) :
    Moves (between lo hi f) := by
  intro s hs
  by_cases hlo : lo ≤ ((s.take hi).takeWhile f).length
  · have hs : ((s.take hi).takeWhile f).length = 0 := by simpa [between, hlo] using hs
    omega
  · simp [between, hlo] at hs

theorem Moves.seq (h : Moves p) (q : Pattern) : Moves (seq p q) := by
  intro s hs
  obtain ⟨k, m, hk, -, hsum⟩ := seq_eq_some hs
  obtain rfl : k = 0 := by omega
  exact h s hk

theorem Moves.seq_right (h : Moves q) (p : Pattern) : Moves (Pattern.seq p q) := by
  intro s hs
  obtain ⟨k, m, -, hm, hsum⟩ := seq_eq_some hs
  obtain rfl : m = 0 := by omega
  exact h _ hm

theorem Moves.alt (hp : Moves p) (hq : Moves q) : Moves (alt p q) := by
  intro s hs
  rcases alt_eq_some hs with hs | hs
  · exact hp s hs
  · exact hq s hs

end Pattern
end Highlight
