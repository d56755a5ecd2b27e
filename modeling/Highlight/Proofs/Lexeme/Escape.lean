import Highlight.Lexeme.Escape
import Highlight.Lexeme.Word
import Highlight.Proofs.Language.Advance
/-! # Escape sequences between quotes

An escape sequence starts at a backslash, takes the character behind it and then only characters
that are neither quotes nor backslashes. So it never takes the quote that ends the string.
-/
namespace Highlight.Lexeme

open Pattern

/-- What can stand between two quotes: characters other than the quote and the backslash, and
backslashes with any one character behind them. -/
inductive Enclosed (q : Char) : Text → Prop
  | nil : Enclosed q []
  | plain {c : Char} {t : Text} (notQuote : c ≠ q) (notBackslash : c ≠ Text.backslash)
      (rest : Enclosed q t) : Enclosed q (c :: t)
  | escaped {t : Text} (c : Char) (rest : Enclosed q t) : Enclosed q (Text.backslash :: c :: t)

theorem Enclosed.of_append {q : Char} {u t : Text} (h : Enclosed q (u ++ t))
    (hu : ∀ c ∈ u, c ≠ Text.backslash) : Enclosed q t := by
  induction u with
  | nil => exact h
  | cons c u ih =>
    have hrest : Enclosed q (u ++ t) := by
      rw [List.cons_append] at h
      generalize u ++ t = v at h
      cases h with
      | plain _ _ rest => exact rest
      | escaped d rest => exact absurd rfl (hu Text.backslash List.mem_cons_self)
    exact ih hrest fun d hd => hu d (List.mem_cons_of_mem c hd)

/-- Neither a quote nor a backslash. -/
def isPlain (c : Char) : Bool := !(isQuote c || c == Text.backslash)

theorem isPlain_iff {c : Char} : isPlain c = true ↔ isQuote c = false ∧ c ≠ Text.backslash := by
  simp [isPlain]

theorem isQuote_iff {c : Char} :
    isQuote c = true ↔ c = Text.doubleQuote ∨ c = Text.singleQuote := by
  simp [isQuote]

theorem Enclosed.append_plain {q : Char} {u t : Text} (h : Enclosed q t) (hq : isQuote q = true)
    (hu : ∀ c ∈ u, isPlain c = true) : Enclosed q (u ++ t) := by
  induction u with
  | nil => exact h
  | cons c u ih =>
    have hc := isPlain_iff.mp (hu c List.mem_cons_self)
    refine .plain ?_ hc.2 (ih fun d hd => hu d (List.mem_cons_of_mem c hd))
    rintro rfl
    rw [hq] at hc
    exact Bool.noConfusion hc.1

private theorem isPlain_of_class {f : Char → Bool} (hdouble : f Text.doubleQuote = false)
    (hsingle : f Text.singleQuote = false) (hbackslash : f Text.backslash = false) (c : Char)
    (h : f c = true) : isPlain c = true := by
  rw [isPlain_iff]
  constructor
  · cases hquote : isQuote c with
    | false => rfl
    | true =>
      rcases isQuote_iff.mp hquote with rfl | rfl
      · simp [hdouble] at h
      · simp [hsingle] at h
  · rintro rfl
    simp [hbackslash] at h

theorem isPlain_of_isHexDigit : ∀ c, isHexDigit c = true → isPlain c = true :=
  isPlain_of_class (by decide) (by decide) (by decide)

private theorem isPlain_of_isOctalDigit : ∀ c, isOctalDigit c = true → isPlain c = true :=
  isPlain_of_class (by decide) (by decide) (by decide)

private theorem octal_within :
    Within isPlain (alt (between 2 3 isOctalDigit)
      (seq (one fun c => '1' ≤ c && c ≤ '7') (between 0 2 isOctalDigit))) := by
  have hlead : Within isPlain (one fun c => '1' ≤ c && c ≤ '7') :=
    within_one (isPlain_of_class (by decide) (by decide) (by decide))
  exact (within_between 2 3 isPlain_of_isOctalDigit).alt
    (hlead.seq (within_between 0 2 isPlain_of_isOctalDigit))

private theorem hex_within : Within isPlain (all [char 'x', between 2 2 isHexDigit]) := by
  have hmark : Within isPlain (char 'x') := within_char (by decide)
  exact hmark.seq ((within_between 2 2 isPlain_of_isHexDigit).seq within_all_nil)

private theorem unicode_within :
    Within isPlain (all [char 'u',
      alt (between 4 4 isHexDigit) (all [char '{', many1 isHexDigit, char '}'])]) := by
  have hmark : Within isPlain (char 'u') := within_char (by decide)
  have hopen : Within isPlain (char '{') := within_char (by decide)
  have hclose : Within isPlain (char '}') := within_char (by decide)
  have hdigits := within_between 4 4 isPlain_of_isHexDigit
  have hbraces := hopen.seq ((within_many1 isPlain_of_isHexDigit).seq (hclose.seq within_all_nil))
  exact hmark.seq ((hdigits.alt hbraces).seq within_all_nil)

private theorem backslash_seq {p : Pattern} (hwithin : Within isPlain p) (hmoves : Moves p)
    {c : Char} {cs : Text} {m : Nat} (h : seq backslash p (Text.backslash :: c :: cs) = some m) :
    ∃ n, m = n + 2 ∧ n ≤ cs.length ∧ ∀ d ∈ cs.take n, isPlain d = true := by
  obtain ⟨k, i, hk, hi, rfl⟩ := seq_eq_some h
  obtain rfl : 1 = k := by simpa [backslash, char, one] using hk
  cases i with
  | zero => exact absurd hi (hmoves (c :: cs))
  | succ n =>
    obtain ⟨hlen, hall⟩ := hwithin (c :: cs) (n + 1) hi
    refine ⟨n, by omega, by simpa using hlen, ?_⟩
    intro d hd
    exact hall d (List.mem_cons_of_mem c hd)

private theorem code_length {c : Char} {cs : Text} {m : Nat}
    (h : any [octalEscape, hexEscape, unicodeEscape] (Text.backslash :: c :: cs) = some m) :
    ∃ n, m = n + 2 ∧ n ≤ cs.length ∧ ∀ d ∈ cs.take n, isPlain d = true := by
  rcases alt_eq_some h with h | h
  · have hmoves := (moves_between Nat.two_pos 3 isOctalDigit).alt
      ((moves_one fun c => '1' ≤ c && c ≤ '7').seq (between 0 2 isOctalDigit))
    exact backslash_seq octal_within hmoves h
  · rcases alt_eq_some h with h | h
    · exact backslash_seq hex_within ((moves_one _).seq _) h
    · rcases alt_eq_some h with h | h
      · exact backslash_seq unicode_within ((moves_one _).seq _) h
      · contradiction

variable {s : Scanner} {c : Char} {cs : Text}

/-- At a backslash that does not end the line there is an escape sequence, which ends in plain
characters, or the character behind the backslash is not one that can be escaped. -/
theorem escape?_backslash (hs : s.rest = Text.backslash :: c :: cs) :
    (∃ n, n ≤ cs.length ∧ (∀ d ∈ cs.take n, isPlain d = true) ∧
      escape? s = some ((s.advance (n + 2)).emit .escape, false)) ∨
    (escape? s = none ∧ isEscapable c = false) := by
  have hlineEnd : s.token? .escape lineEndEscape = none := by
    apply Scanner.token?_eq_none
    rw [hs]
    rfl
  cases hcode : any [octalEscape, hexEscape, unicodeEscape] s.rest with
  | some m =>
    obtain ⟨n, rfl, hlen, hall⟩ := code_length (hs ▸ hcode)
    refine .inl ⟨n, hlen, hall, ?_⟩
    simp [escape?, Scanner.token?, Scanner.accept?, hcode]
  | none =>
    have hnone := Scanner.token?_eq_none hcode .escape
    by_cases hc : isEscapable c = true
    · refine .inl ⟨0, Nat.zero_le _, by simp, ?_⟩
      have hsingle : singleEscape.Takes [Text.backslash, c] cs :=
        (takes_char Text.backslash ([c] ++ cs)).seq (takes_one hc cs)
      rw [escape?, hnone, hlineEnd, Scanner.token?_of_takes hs hsingle]
      rfl
    · have hc : isEscapable c = false := by simpa using hc
      have hsingle : s.token? .escape singleEscape = none := by
        apply Scanner.token?_eq_none
        rw [hs]
        exact (takes_char Text.backslash (c :: cs)).seq_eq_none
          (one_eq_none (Text.stops_cons.mpr hc))
      refine .inr ⟨?_, hc⟩
      rw [escape?, hnone, hlineEnd, hsingle]
      rfl

theorem escape?_eq_none (hs : s.rest = c :: cs) (hc : c ≠ Text.backslash) : escape? s = none := by
  have hstart : backslash s.rest = none := by
    rw [hs, backslash, char, one_eq_none]
    exact Text.stops_cons.mpr (by simpa using hc)
  have hseq : ∀ p, seq backslash p s.rest = none := fun p => seq_eq_none hstart
  have hoctal : octalEscape s.rest = none := hseq _
  have hhex : hexEscape s.rest = none := hseq _
  have hunicode : unicodeEscape s.rest = none := hseq _
  have hlineEnd : lineEndEscape s.rest = none := hseq _
  have hsingle : singleEscape s.rest = none := hseq _
  have hcode : any [octalEscape, hexEscape, unicodeEscape] s.rest = none := by
    simp [any, alt, hoctal, hhex, hunicode]
  rw [escape?, Scanner.token?_eq_none hcode, Scanner.token?_eq_none hlineEnd,
    Scanner.token?_eq_none hsingle]
  rfl

theorem escape?_endsLine {t : Scanner} (h : escape? s = some (t, true)) : t.rest = [] := by
  cases hcode : s.token? .escape (any [octalEscape, hexEscape, unicodeEscape]) with
  | some u => simp [escape?, hcode] at h
  | none =>
    cases hlineEnd : s.token? .escape lineEndEscape with
    | some u =>
      obtain rfl : u = t := by simpa [escape?, hcode, hlineEnd] using h
      obtain ⟨n, hn, rfl⟩ := Scanner.token?_eq_some hlineEnd
      obtain ⟨k, m, -, hfinish, rfl⟩ := seq_eq_some hn
      have hend : s.rest.drop k = [] := (finish_eq_some hfinish).1
      simp [Scanner.advance, ← List.drop_drop, hend]
    | none => simp [escape?, hcode, hlineEnd] at h

end Highlight.Lexeme
