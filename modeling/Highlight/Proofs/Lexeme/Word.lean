import Highlight.Lexeme.Word
import Highlight.Proofs.Scanner.Take
/-! # Words and blanks

Which characters words start with and go on with, and that blanks are none of them.
-/
namespace Highlight.Lexeme

open Pattern

theorem isAlpha_iff {c : Char} : c.isAlpha = true ↔
    ('A'.toNat ≤ c.toNat ∧ c.toNat ≤ 'Z'.toNat) ∨ ('a'.toNat ≤ c.toNat ∧ c.toNat ≤ 'z'.toNat) := by
  have hle : ∀ {a b : UInt32}, decide (a ≤ b) = true ↔ a.toNat ≤ b.toNat :=
    decide_eq_true_iff.trans UInt32.le_iff_toNat_le
  have hupper : c.isUpper = true ↔ 'A'.toNat ≤ c.toNat ∧ c.toNat ≤ 'Z'.toNat :=
    decide_eq_true_iff.trans (and_congr UInt32.le_iff_toNat_le UInt32.le_iff_toNat_le)
  have hlower : c.isLower = true ↔ 'a'.toNat ≤ c.toNat ∧ c.toNat ≤ 'z'.toNat :=
    Bool.and_eq_true_iff.trans (and_congr hle hle)
  exact Bool.or_eq_true_iff.trans (or_congr hupper hlower)

theorem isWordStart_of_isDigit {c : Char} (h : c.isDigit = true) : isWordStart c = false := by
  have hne : c ≠ '_' ∧ c ≠ '$' := by
    constructor
    all_goals
      rintro rfl
      contradiction
  have halpha : c.isAlpha = false := by
    rw [Char.isDigit_iff_toNat] at h
    rw [Bool.eq_false_iff, ne_eq, isAlpha_iff]
    have h9 : '9'.toNat = 57 := rfl
    have hA : 'A'.toNat = 65 := rfl
    have ha : 'a'.toNat = 97 := rfl
    omega
  simp [isWordStart, halpha, hne]

theorem isWordChar_of_isWordStart {c : Char} (h : isWordStart c = true) : isWordChar c = true := by
  simp only [isWordStart, isWordChar, Char.isAlphanum, Bool.or_eq_true] at h ⊢
  rcases h with (h | h) | h
  · exact .inl (.inl (.inl h))
  · exact .inl (.inr h)
  · exact .inr h

theorem isBlank_of_isWordChar {c : Char} (h : isWordChar c = true) : Text.isBlank c = false := by
  have hrange : '$'.toNat ≤ c.toNat ∧ c.toNat ≤ 'z'.toNat := by
    simp only [isWordChar, Char.isAlphanum, Bool.or_eq_true, beq_iff_eq, isAlpha_iff,
      Char.isDigit_iff_toNat] at h
    rcases h with (((h | h) | h) | rfl) | rfl
    · exact ⟨Nat.le_trans (by decide) h.1, Nat.le_trans h.2 (by decide)⟩
    · exact ⟨Nat.le_trans (by decide) h.1, Nat.le_trans h.2 (by decide)⟩
    · exact ⟨Nat.le_trans (by decide) h.1, Nat.le_trans h.2 (by decide)⟩
    · decide
    · decide
  have hlow : '$'.toNat = 36 := rfl
  have hhigh : 'z'.toNat = 122 := rfl
  simp only [Text.isBlank, Bool.or_eq_false_iff, Bool.and_eq_false_iff, decide_eq_false_iff_not,
    beq_eq_false_iff_ne]
  omega

theorem identifier_eq_none {c : Char} (h : isWordStart c = false) (cs : Text) :
    identifier (c :: cs) = none :=
  seq_eq_none (one_eq_none (Text.stops_cons.mpr h))

theorem takes_identifier {c : Char} {cs r : Text} (hc : isWordStart c = true)
    (hcs : ∀ d ∈ cs, isWordChar d = true) (hr : r.Stops isWordChar) :
    identifier.Takes (c :: cs) r := by
  have hone : (one isWordStart).Takes [c] (cs ++ r) := takes_one hc _
  exact hone.seq (takes_many hcs hr)

theorem identifier_eq_some {t : Text} {n : Nat} (h : identifier t = some n) :
    ∃ (c : Char) (cs r : Text), t = c :: cs ++ r ∧ n = (c :: cs).length ∧ isWordStart c = true ∧
      (∀ d ∈ cs, isWordChar d = true) ∧ r.Stops isWordChar := by
  obtain ⟨k, m, hk, hm, rfl⟩ := seq_eq_some h
  obtain ⟨rfl, c, cs, rfl, hc⟩ := one_eq_some hk
  obtain rfl : (cs.takeWhile isWordChar).length = m := Option.some.inj hm
  have hstops := Text.stops_dropWhile_append isWordChar cs (Text.stops_nil isWordChar)
  rw [List.append_nil] at hstops
  refine ⟨c, cs.takeWhile isWordChar, cs.dropWhile isWordChar, run_append_rest isWordChar c cs,
    ?_, hc, List.all_eq_true.mp List.all_takeWhile, hstops⟩
  rw [List.length_cons, Nat.add_comm]

end Highlight.Lexeme
