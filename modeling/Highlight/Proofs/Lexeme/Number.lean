import Highlight.Lexeme.Number
import Highlight.Lexeme.Word
import Highlight.Proofs.Scanner.Take
/-! # Parts of numbers

The parts of decimal numbers, what could go on with a number, and where no number starts.
-/
namespace Highlight.Lexeme

open Pattern

def IsDigits (t : Text) : Prop := t ≠ [] ∧ t.all Char.isDigit = true

instance (t : Text) : Decidable (IsDigits t) :=
  inferInstanceAs (Decidable (t ≠ [] ∧ t.all Char.isDigit = true))

/-- Digits without a zero in front, or a zero alone. -/
def IsWhole (t : Text) : Prop := IsDigits t ∧ (t.head? = some '0' → t = ['0'])

instance (t : Text) : Decidable (IsWhole t) :=
  inferInstanceAs (Decidable (IsDigits t ∧ (t.head? = some '0' → t = ['0'])))

def IsFraction (t : Text) : Prop := ∃ ds, IsDigits ds ∧ t = '.' :: ds

def IsSign (t : Text) : Prop := t = [] ∨ t = ['+'] ∨ t = ['-']

def IsExponent (t : Text) : Prop :=
  ∃ mark sign ds, (mark = 'e' ∨ mark = 'E') ∧ (sign = [] ∨ sign = ['+'] ∨ sign = ['-']) ∧
    IsDigits ds ∧ t = mark :: (sign ++ ds)

/-- A character that could go on with a word or a number. -/
def isJoining (c : Char) : Bool := isWordChar c || c == '.'

theorem isJoining_eq_false {c : Char} : isJoining c = false ↔ isWordChar c = false ∧ c ≠ '.' := by
  simp [isJoining]

theorem isDigit_of_not_joining {c : Char} (h : isJoining c = false) : c.isDigit = false := by
  simp only [isJoining, isWordChar, Char.isAlphanum, Bool.or_eq_false_iff] at h
  exact h.1.1.1.2

theorem contains_eq_false {marks : List Char} {f : Char → Bool} {c : Char}
    (hmarks : marks.all f = true) (hc : f c = false) : marks.contains c = false := by
  rw [← Bool.not_eq_true, List.contains_iff_mem]
  intro hmem
  have hin : f c = true := List.all_eq_true.mp hmarks c hmem
  rw [hc] at hin
  contradiction

theorem isDigit_of_isOctalDigit {c : Char} (h : isOctalDigit c = true) : c.isDigit = true := by
  simp only [isOctalDigit, Char.isDigit, Bool.and_eq_true, decide_eq_true_eq, Char.le_def,
    ge_iff_le, UInt32.le_iff_toNat_le] at h ⊢
  have h7 : '7'.val.toNat = 55 := rfl
  have h9 : '9'.val.toNat = 57 := rfl
  omega

variable {whole exp sign r : Text}

theorem IsDigits.isDigit {t : Text} (h : IsDigits t) : ∀ c ∈ t, c.isDigit = true :=
  List.all_eq_true.mp h.2

theorem IsDigits.head {t : Text} (h : IsDigits t) : ∃ d ds, t = d :: ds ∧ d.isDigit = true := by
  obtain ⟨d, ds, rfl⟩ := List.exists_cons_of_ne_nil h.1
  exact ⟨d, ds, rfl, h.isDigit d List.mem_cons_self⟩

theorem takes_digits (h : IsDigits whole) (hr : r.Stops Char.isDigit) :
    (many1 Char.isDigit).Takes whole r := takes_many1 h.1 h.isDigit hr

private theorem takes_sign (hsign : IsSign sign) (hr : r.Stops (['+', '-'].contains ·)) :
    (optional (oneOf ['+', '-'])).Takes sign r := by
  rcases hsign with rfl | rfl | rfl
  · exact takes_optional_nil (one_eq_none hr)
  · exact (takes_one rfl _).optional
  · exact (takes_one rfl _).optional

private theorem IsDigits.stops_sign {ds : Text} (h : IsDigits ds) (r : Text) :
    Text.Stops (['+', '-'].contains ·) (ds ++ r) :=
  Text.stops_append h.1 (fun c hc => contains_eq_false (f := fun c => !c.isDigit) rfl
    (by rw [h.isDigit c hc]; rfl)) r

theorem takes_exponent (h : IsExponent exp) (hr : r.Stops Char.isDigit) : exponent.Takes exp r := by
  obtain ⟨mark, sign, ds, hmark, hsign, hds, rfl⟩ := h
  have hmark : (oneOf ['e', 'E']).Takes [mark] (sign ++ (ds ++ []) ++ r) := by
    apply takes_one
    rcases hmark with rfl | rfl <;> rfl
  have hsign : (optional (oneOf ['+', '-'])).Takes sign (ds ++ [] ++ r) := by
    rw [List.append_assoc]
    exact takes_sign hsign (hds.stops_sign _)
  have htake := hmark.seq (hsign.seq ((takes_digits hds hr).seq (takes_all_nil r)))
  rwa [List.append_nil] at htake

theorem zero_seq_eq_none {p : Pattern} {u : Text} (hwhole : IsWhole whole) (hp : p u = none) :
    seq (char '0') p (whole ++ u) = none := by
  obtain ⟨d, ds, rfl, -⟩ := hwhole.1.head
  by_cases hd : d = '0'
  · have hzero : d :: ds = ['0'] := hwhole.2 (by simp [hd])
    rw [hzero]
    exact (takes_char '0' u).seq_eq_none hp
  · exact seq_eq_none (one_eq_none (Text.stops_cons.mpr (by simpa using hd)))

theorem zeroNumber_eq_none {c : Char} (hdigit : c.isDigit = false) (p : Pattern) (cs : Text) :
    seq (char '0') p (c :: cs) = none := by
  have hne : c ≠ '0' := by
    rintro rfl
    contradiction
  exact seq_eq_none (one_eq_none (Text.stops_cons.mpr (by simpa using hne)))

private theorem mantissa_eq_none {c : Char} (hdigit : c.isDigit = false) (hpoint : c ≠ '.')
    (cs : Text) : mantissa (c :: cs) = none := by
  have hdigits : many1 Char.isDigit (c :: cs) = none := many1_eq_none (Text.stops_cons.mpr hdigit)
  have hpoint : char '.' (c :: cs) = none :=
    one_eq_none (Text.stops_cons.mpr (by simpa using hpoint))
  rw [mantissa, alt, seq_eq_none hdigits, seq_eq_none hpoint]
  rfl

theorem number_eq_none {c : Char} {cs : Text} (hdigit : c.isDigit = false) (hpoint : c ≠ '.') :
    number (c :: cs) = none := by
  have hhex : hexNumber (c :: cs) = none := zeroNumber_eq_none hdigit _ cs
  have hbinary : binaryNumber (c :: cs) = none := zeroNumber_eq_none hdigit _ cs
  have hoctal : octalNumber (c :: cs) = none := zeroNumber_eq_none hdigit _ cs
  have hdecimal : decimalNumber (c :: cs) = none :=
    seq_eq_none (mantissa_eq_none hdigit hpoint cs)
  simp [number, any, alt, hhex, hbinary, hoctal, hdecimal]

theorem signedNumber_eq_none {c : Char} {cs : Text} (hdigit : c.isDigit = false)
    (hmark : ['+', '-', '.'].contains c = false) : signedNumber (c :: cs) = none := by
  have hne : c ≠ '+' ∧ c ≠ '-' ∧ c ≠ '.' := by simpa using hmark
  have hhex : hexNumber (c :: cs) = none := zeroNumber_eq_none hdigit _ cs
  have hbinary : binaryNumber (c :: cs) = none := zeroNumber_eq_none hdigit _ cs
  have hoctal : octalNumber (c :: cs) = none := zeroNumber_eq_none hdigit _ cs
  have hsign : (optional (oneOf ['+', '-'])).Takes [] (c :: cs) :=
    takes_optional_nil (one_eq_none (Text.stops_cons.mpr (by simp [hne])))
  have hdecimal : signedDecimalNumber (c :: cs) = none :=
    hsign.seq_eq_none (seq_eq_none (mantissa_eq_none hdigit hne.2.2 cs))
  simp [signedNumber, any, alt, hhex, hbinary, hoctal, hdecimal]

theorem signedNumber_start {c : Char} {cs : Text} (h : signedNumber.Takes (c :: cs) r) :
    c.isDigit = true ∨ ['+', '-', '.'].contains c = true := by
  cases hdigit : c.isDigit with
  | true => exact .inl rfl
  | false =>
    cases hmark : ['+', '-', '.'].contains c with
    | true => exact .inr rfl
    | false =>
      have hnone : signedNumber (c :: (cs ++ r)) = none := signedNumber_eq_none hdigit hmark
      have hsome : signedNumber (c :: (cs ++ r)) = some (c :: cs).length := h
      rw [hnone] at hsome
      contradiction

end Highlight.Lexeme
