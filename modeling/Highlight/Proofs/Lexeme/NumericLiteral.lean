import Highlight.Proofs.Lexeme.Number
import Highlight.Proofs.Lexeme.Word
/-! # Numeric literals

The notations of numbers that languages share. They are tried in a fixed order, and the first one
that matches is taken even if a later one would be longer. In front of something that could not go
on with a literal, that is the notation in which the literal is written: those before it look for a
mark behind a leading zero that is not there. Only the decimal notation may have a sign.
-/
namespace Highlight.Lexeme

open Pattern

/-- A base that is told by a mark behind a leading zero. -/
inductive Base where
  | hexadecimal
  | binary
  | octal

namespace Base

def marks : Base → List Char
  | .hexadecimal => ['x', 'X']
  | .binary => ['b', 'B']
  | .octal => ['o', 'O']

def isDigit : Base → Char → Bool
  | .hexadecimal => isHexDigit
  | .binary => isBinaryDigit
  | .octal => isOctalDigit

end Base

/-- A point and the digits behind it, perhaps none. -/
def IsPlaces (t : Text) : Prop := ∃ ds, (∀ d ∈ ds, Char.isDigit d = true) ∧ t = '.' :: ds

theorem IsFraction.isPlaces {t : Text} (h : IsFraction t) : IsPlaces t := by
  obtain ⟨ds, hds, rfl⟩ := h
  exact ⟨ds, hds.isDigit, rfl⟩

/-- What a literal writes down. Octal digits may stand behind the leading zero without a mark. -/
inductive Magnitude where
  | marked (base : Base) (mark : Char) (digits : Text) (known : mark ∈ base.marks)
    (nonempty : digits ≠ []) (digit : ∀ c ∈ digits, base.isDigit c = true)
  | octal (digits : Text) (nonempty : digits ≠ []) (digit : ∀ c ∈ digits, isOctalDigit c = true)
  | decimal (whole places exp : Text) (isWhole : IsWhole whole)
    (isPlaces : places = [] ∨ IsPlaces places) (isExponent : exp = [] ∨ IsExponent exp)
  | fraction (frac exp : Text) (isFraction : IsFraction frac)
    (isExponent : exp = [] ∨ IsExponent exp)

namespace Magnitude

def text : Magnitude → Text
  | .marked _ mark digits _ _ _ => '0' :: mark :: digits
  | .octal digits _ _ => '0' :: digits
  | .decimal whole places exp _ _ _ => whole ++ (places ++ exp)
  | .fraction frac exp _ _ => frac ++ exp

def isMarked : Magnitude → Bool
  | .marked .. => true
  | _ => false

end Magnitude

def suffix (big : Bool) : Text := if big then ['n'] else []

/-- A numeric literal without a sign, perhaps with the letter `n` at its end. -/
structure NumericLiteral where
  magnitude : Magnitude
  big : Bool

def NumericLiteral.text (l : NumericLiteral) : Text := l.magnitude.text ++ suffix l.big

/-- A character that a decimal number could go on with. -/
def isDecimalChar (c : Char) : Bool := c.isDigit || ['.', 'e', 'E', 'n'].contains c

variable {c mark : Char} {digits places frac exp m sign t r : Text} {big : Bool} {f : Char → Bool}

private theorem isDecimalChar_of_not_joining (h : isJoining c = false) :
    isDecimalChar c = false := by
  have hmark : ['.', 'e', 'E', 'n'].contains c = false := contains_eq_false rfl h
  rw [isDecimalChar, isDigit_of_not_joining h, hmark]
  rfl

private theorem isDecimalChar_eq_false : isDecimalChar c = false ↔
    c.isDigit = false ∧ c ≠ '.' ∧ c ≠ 'e' ∧ c ≠ 'E' ∧ c ≠ 'n' := by
  simp [isDecimalChar]

section Tails

private theorem stops_suffix (hn : f 'n' = false) (big : Bool) (hr : r.Stops f) :
    Text.Stops f (suffix big ++ r) := by
  cases big with
  | false => exact hr
  | true => exact Text.stops_cons.mpr hn

private theorem stops_exponent (he : f 'e' = false) (hE : f 'E' = false)
    (hexp : exp = [] ∨ IsExponent exp) (hr : r.Stops f) : Text.Stops f (exp ++ r) := by
  rcases hexp with rfl | ⟨mark, sign, ds, rfl | rfl, -, -, rfl⟩
  · exact hr
  · exact Text.stops_cons.mpr he
  · exact Text.stops_cons.mpr hE

private theorem stops_places (hpoint : f '.' = false) (h : places = [] ∨ IsPlaces places)
    (hr : r.Stops f) : Text.Stops f (places ++ r) := by
  rcases h with rfl | ⟨ds, -, rfl⟩
  · exact hr
  · exact Text.stops_cons.mpr hpoint

private theorem takes_suffix (big : Bool) (hr : r.Stops (· == 'n')) :
    bigSuffix.Takes (suffix big) r := by
  cases big with
  | false => exact takes_optional_nil (one_eq_none hr)
  | true => exact (takes_char 'n' r).optional

end Tails

section Decimal

private theorem takes_whole (h : IsDigits digits) (hplaces : places = [] ∨ IsPlaces places)
    (hr : r.Stops fun c => c.isDigit || c == '.') : mantissa.Takes (digits ++ places) r := by
  have hdigit : r.Stops Char.isDigit := hr.mono fun c hc => (Bool.or_eq_false_iff.mp hc).1
  have hpoint : r.Stops (· == '.') := hr.mono fun c hc => (Bool.or_eq_false_iff.mp hc).2
  have htail : (optional (seq (char '.') (many Char.isDigit))).Takes places r := by
    rcases hplaces with rfl | ⟨ds, hds, rfl⟩
    · exact takes_optional_nil (seq_eq_none (one_eq_none hpoint))
    · exact ((takes_char '.' (ds ++ r)).seq (takes_many hds hdigit)).optional
  exact ((takes_digits h (stops_places rfl hplaces hdigit)).seq htail).alt_left _

private theorem takes_fraction (h : IsFraction frac) (hr : r.Stops Char.isDigit) :
    mantissa.Takes frac r := by
  obtain ⟨ds, hds, rfl⟩ := h
  have hwhole : many1 Char.isDigit ('.' :: ds ++ r) = none :=
    many1_eq_none (Text.stops_cons.mpr rfl)
  exact ((takes_char '.' (ds ++ r)).seq (takes_digits hds hr)).alt_right (seq_eq_none hwhole)

private theorem takes_tail (hm : mantissa.Takes m (exp ++ (suffix big ++ r)))
    (hexp : exp = [] ∨ IsExponent exp) (hr : r.Stops isDecimalChar) :
    decimalNumber.Takes (m ++ (exp ++ suffix big)) r := by
  have hexponent : (optional exponent).Takes exp (suffix big ++ r) := by
    rcases hexp with rfl | hexp
    · have hstop : Text.Stops (['e', 'E'].contains ·) (suffix big ++ r) :=
        stops_suffix rfl big (hr.mono fun c hc => by simp [isDecimalChar_eq_false.mp hc])
      exact takes_optional_nil (seq_eq_none (one_eq_none hstop))
    · have hstop : Text.Stops Char.isDigit (suffix big ++ r) :=
        stops_suffix rfl big (hr.mono fun c hc => (isDecimalChar_eq_false.mp hc).1)
      exact (takes_exponent hexp hstop).optional
  have hsuffix : bigSuffix.Takes (suffix big) r :=
    takes_suffix big (hr.mono fun c hc => by simpa using (isDecimalChar_eq_false.mp hc).2.2.2.2)
  have htail : (all [bigSuffix]).Takes (suffix big ++ []) r := hsuffix.seq (takes_all_nil r)
  rw [List.append_nil] at htail
  have hm : mantissa.Takes m (exp ++ suffix big ++ r) := by rwa [List.append_assoc]
  exact hm.seq (hexponent.seq htail)

theorem takes_decimal (hdigits : IsDigits digits) (hplaces : places = [] ∨ IsPlaces places)
    (hexp : exp = [] ∨ IsExponent exp) (big : Bool) (hr : r.Stops isDecimalChar) :
    decimalNumber.Takes (digits ++ (places ++ exp) ++ suffix big) r := by
  have hrest : r.Stops fun c => c.isDigit || c == '.' := hr.mono fun c hc => by
    simp [isDecimalChar_eq_false.mp hc]
  have hstop := stops_exponent rfl rfl hexp (stops_suffix rfl big hrest)
  have htake := takes_tail (takes_whole hdigits hplaces hstop) hexp hr
  have hassoc : digits ++ places ++ (exp ++ suffix big) =
      digits ++ (places ++ exp) ++ suffix big := by
    simp only [List.append_assoc]
  rwa [hassoc] at htake

end Decimal

namespace Base

/-- What the notation of a base looks for behind the leading zero. -/
def behindZero : Base → Pattern
  | .hexadecimal => all [oneOf ['x', 'X'], many1 isHexDigit, bigSuffix]
  | .binary => all [oneOf ['b', 'B'], many1 isBinaryDigit, bigSuffix]
  | .octal => all [optional (oneOf ['o', 'O']), many1 isOctalDigit, bigSuffix]

theorem isWordChar_of_isDigit {b : Base} (h : b.isDigit c = true) : isWordChar c = true := by
  have hdigit : c.isDigit = true → isWordChar c = true := by
    intro hc
    simp [isWordChar, Char.isAlphanum, hc]
  cases b with
  | hexadecimal =>
    have halpha : ∀ {lo hi : Char}, ('A' ≤ lo ∧ hi ≤ 'Z' ∨ 'a' ≤ lo ∧ hi ≤ 'z') →
        lo ≤ c ∧ c ≤ hi → isWordChar c = true := by
      intro lo hi hrange hc
      have hc : c.isAlpha = true := by
        rw [isAlpha_iff]
        exact hrange.imp (fun h => ⟨Nat.le_trans h.1 hc.1, Nat.le_trans hc.2 h.2⟩)
          (fun h => ⟨Nat.le_trans h.1 hc.1, Nat.le_trans hc.2 h.2⟩)
      simp [isWordChar, Char.isAlphanum, hc]
    simp only [isDigit, isHexDigit, Bool.or_eq_true, Bool.and_eq_true, decide_eq_true_eq] at h
    rcases h with (h | h) | h
    · exact hdigit h
    · exact halpha (.inr (by decide)) h
    · exact halpha (.inl (by decide)) h
  | binary =>
    have hc : c = '0' ∨ c = '1' := by simpa [isDigit, isBinaryDigit] using h
    rcases hc with rfl | rfl <;> rfl
  | octal => exact hdigit (isDigit_of_isOctalDigit h)

private theorem stops_isDigit (b : Base) (hr : r.Stops isJoining) : r.Stops b.isDigit :=
  hr.mono fun c hc => by
    cases hdigit : b.isDigit c with
    | false => rfl
    | true =>
      rw [isJoining, isWordChar_of_isDigit hdigit] at hc
      contradiction

private theorem takes_digits (b : Base) (hne : digits ≠ [])
    (hdigits : ∀ c ∈ digits, b.isDigit c = true) (big : Bool) (hr : r.Stops isJoining) :
    (all [many1 b.isDigit, bigSuffix]).Takes (digits ++ suffix big) r := by
  have hn : b.isDigit 'n' = false := by
    cases b <;> rfl
  have hstop : Text.Stops b.isDigit (suffix big ++ r) :=
    stops_suffix hn big (b.stops_isDigit hr)
  have hsuffix : bigSuffix.Takes (suffix big) r :=
    takes_suffix big (hr.mono fun c hc => by
      simpa using (isDecimalChar_eq_false.mp (isDecimalChar_of_not_joining hc)).2.2.2.2)
  have hend : (all [bigSuffix]).Takes (suffix big ++ []) r := hsuffix.seq (takes_all_nil r)
  rw [List.append_nil] at hend
  exact (takes_many1 hne hdigits hstop).seq hend

private theorem takes_behindZero (b : Base) (hmark : mark ∈ b.marks) (hne : digits ≠ [])
    (hdigits : ∀ c ∈ digits, b.isDigit c = true) (big : Bool) (hr : r.Stops isJoining) :
    b.behindZero.Takes (mark :: (digits ++ suffix big)) r := by
  have htail := b.takes_digits hne hdigits big hr
  have hone : (oneOf b.marks).Takes [mark] (digits ++ suffix big ++ r) :=
    takes_one (List.contains_iff_mem.mpr hmark) _
  cases b with
  | hexadecimal => exact hone.seq htail
  | binary => exact hone.seq htail
  | octal => exact hone.optional.seq htail

private theorem behindZero_eq_none (b : Base) (hmark : r.Stops (b.marks.contains ·))
    (hoctal : b = .octal → r.Stops isOctalDigit) : b.behindZero r = none := by
  have hone : oneOf b.marks r = none := one_eq_none hmark
  cases b with
  | hexadecimal => exact seq_eq_none hone
  | binary => exact seq_eq_none hone
  | octal =>
    have hdigits : many1 isOctalDigit r = none := many1_eq_none (hoctal rfl)
    exact (takes_optional_nil hone).seq_eq_none (seq_eq_none hdigits)

private theorem stops_marks {b b' : Base} (h : mark ∈ b.marks) (hne : b' ≠ b) (t : Text) :
    Text.Stops (b'.marks.contains ·) (mark :: t) := by
  have hmarks : b.marks.all (!b'.marks.contains ·) = true := by
    cases b <;> cases b' <;> first | rfl | contradiction
  have hother := List.all_eq_true.mp hmarks mark h
  exact Text.stops_cons.mpr (by simpa only [Bool.not_eq_true'] using hother)

theorem not_isDecimalChar_of_mark {b : Base} (h : mark ∈ b.marks) :
    isDecimalChar mark = false := by
  have hmarks : b.marks.all (!isDecimalChar ·) = true := by
    cases b <;> rfl
  simpa using List.all_eq_true.mp hmarks mark h

private theorem isOctalDigit_of_mark {b : Base} (h : mark ∈ b.marks) :
    isOctalDigit mark = false := by
  cases hdigit : isOctalDigit mark with
  | false => rfl
  | true =>
    have hmark := (isDecimalChar_eq_false.mp (not_isDecimalChar_of_mark h)).1
    rw [isDigit_of_isOctalDigit hdigit] at hmark
    contradiction

private theorem not_mark_of_isOctalDigit (b : Base) (h : isOctalDigit c = true) :
    b.marks.contains c = false := by
  rw [← Bool.not_eq_true, List.contains_iff_mem]
  intro hmark
  rw [isOctalDigit_of_mark hmark] at h
  contradiction

private theorem behindZero_tail (b : Base) (hplaces : places = [] ∨ IsPlaces places)
    (hexp : exp = [] ∨ IsExponent exp) (big : Bool) (hr : r.Stops isJoining) :
    b.behindZero (places ++ (exp ++ (suffix big ++ r))) = none := by
  have hstop : ∀ {f : Char → Bool}, f '.' = false → f 'e' = false → f 'E' = false →
      f 'n' = false → r.Stops f → Text.Stops f (places ++ (exp ++ (suffix big ++ r))) := by
    intro f hpoint he hE hn hr
    exact stops_places hpoint hplaces (stops_exponent he hE hexp (stops_suffix hn big hr))
  have hmarks : r.Stops (b.marks.contains ·) := hr.mono fun c hc => by
    have hjoining : b.marks.all isJoining = true := by
      cases b <;> rfl
    exact contains_eq_false hjoining hc
  apply b.behindZero_eq_none
  · apply hstop _ _ _ _ hmarks <;> cases b <;> rfl
  · intro _
    exact hstop rfl rfl rfl rfl (Base.octal.stops_isDigit hr)

private theorem takes_any {b : Base} (h : b.behindZero.Takes t r)
    (hothers : ∀ b', b' ≠ b → b'.behindZero (t ++ r) = none) (p : Pattern) :
    (any [hexNumber, binaryNumber, octalNumber, p]).Takes ('0' :: t) r := by
  have htake : (seq (char '0') b.behindZero).Takes ('0' :: t) r := (takes_char '0' (t ++ r)).seq h
  have hnone : ∀ b', b' ≠ b → seq (char '0') b'.behindZero ('0' :: t ++ r) = none := by
    intro b' hne
    exact (takes_char '0' (t ++ r)).seq_eq_none (hothers b' hne)
  cases b with
  | hexadecimal => exact htake.alt_left _
  | binary => exact (htake.alt_left _).alt_right (hnone .hexadecimal (by simp))
  | octal =>
    exact ((htake.alt_left _).alt_right (hnone .binary (by simp))).alt_right
      (hnone .hexadecimal (by simp))

private theorem takes_any_last {p : Pattern} (h : p.Takes t r)
    (hnone : ∀ b : Base, seq (char '0') b.behindZero (t ++ r) = none) :
    (any [hexNumber, binaryNumber, octalNumber, p]).Takes t r :=
  ((h.any_last.alt_right (hnone .octal)).alt_right (hnone .binary)).alt_right (hnone .hexadecimal)

end Base

namespace NumericLiteral

private theorem takes_decimal (l : NumericLiteral) (h : l.magnitude.isMarked = false)
    (hr : r.Stops isDecimalChar) : decimalNumber.Takes l.text r := by
  obtain ⟨magnitude, big⟩ := l
  cases magnitude with
  | marked => contradiction
  | octal digits _ hdigits =>
    have hall : IsDigits ('0' :: digits) := by
      refine ⟨by simp, List.all_eq_true.mpr fun c hc => ?_⟩
      rcases List.mem_cons.mp hc with rfl | hc
      · rfl
      · exact isDigit_of_isOctalDigit (hdigits c hc)
    have htake := Lexeme.takes_decimal hall (.inl rfl) (.inl rfl) big hr
    rwa [List.append_nil, List.append_nil] at htake
  | decimal whole places exp hwhole hplaces hexp =>
    exact Lexeme.takes_decimal hwhole.1 hplaces hexp big hr
  | fraction frac exp hfrac hexp =>
    have hdigit : r.Stops Char.isDigit := hr.mono fun c hc => (isDecimalChar_eq_false.mp hc).1
    have hstop := stops_exponent rfl rfl hexp (stops_suffix rfl big hdigit)
    have htake := takes_tail (takes_fraction hfrac hstop) hexp hr
    rwa [← List.append_assoc] at htake

/-- In front of something that could not go on with it, a literal is taken whole. -/
theorem takes_any (l : NumericLiteral) {p : Pattern} (hr : r.Stops isJoining)
    (hp : l.magnitude.isMarked = false → p.Takes l.text r) :
    (any [hexNumber, binaryNumber, octalNumber, p]).Takes l.text r := by
  obtain ⟨magnitude, big⟩ := l
  cases magnitude with
  | marked b mark digits hmark hne hdigits =>
    refine Base.takes_any (b.takes_behindZero hmark hne hdigits big hr) ?_ p
    intro b' hb'
    exact b'.behindZero_eq_none (Base.stops_marks hmark hb' _)
      fun _ => Text.stops_cons.mpr (Base.isOctalDigit_of_mark hmark)
  | octal digits hne hdigits =>
    have hstop : ∀ b : Base, Text.Stops (b.marks.contains ·) (digits ++ suffix big ++ r) := by
      intro b
      rw [List.append_assoc]
      exact Text.stops_append hne (fun c hc => b.not_mark_of_isOctalDigit (hdigits c hc)) _
    have hmark : oneOf ['o', 'O'] (digits ++ suffix big ++ r) = none := one_eq_none (hstop .octal)
    have hend := Base.octal.takes_digits hne hdigits big hr
    refine Base.takes_any (b := .octal) ((takes_optional_nil hmark).seq hend) ?_ p
    intro b hb
    exact b.behindZero_eq_none (hstop b) fun h => absurd h hb
  | decimal whole places exp hwhole hplaces hexp =>
    apply Base.takes_any_last (hp rfl)
    intro b
    have hnone := zero_seq_eq_none hwhole (b.behindZero_tail hplaces hexp big hr)
    have hassoc : whole ++ (places ++ (exp ++ (suffix big ++ r))) =
        whole ++ (places ++ exp) ++ suffix big ++ r := by
      simp only [List.append_assoc]
    rwa [hassoc] at hnone
  | fraction frac exp hfrac hexp =>
    obtain ⟨ds, -, rfl⟩ := id hfrac
    exact Base.takes_any_last (hp rfl) fun b => zeroNumber_eq_none rfl b.behindZero _

theorem takes_number (l : NumericLiteral) (hr : r.Stops isJoining) : number.Takes l.text r :=
  l.takes_any hr fun h => l.takes_decimal h (hr.mono fun _ hc => isDecimalChar_of_not_joining hc)

theorem text_start (l : NumericLiteral) :
    ∃ c cs, l.text = c :: cs ∧ (c.isDigit = true ∨ c = '.') := by
  obtain ⟨magnitude, big⟩ := l
  cases magnitude with
  | marked | octal => exact ⟨'0', _, rfl, .inl rfl⟩
  | decimal whole places exp hwhole =>
    obtain ⟨d, ds, rfl, hd⟩ := hwhole.1.head
    exact ⟨d, _, rfl, .inl hd⟩
  | fraction frac exp hfrac =>
    obtain ⟨ds, -, rfl⟩ := hfrac
    exact ⟨'.', _, rfl, .inr rfl⟩

theorem text_ne_nil (l : NumericLiteral) : l.text ≠ [] := by
  obtain ⟨c, cs, htext, -⟩ := l.text_start
  simp [htext]

theorem text_ne_point (l : NumericLiteral) : l.text ≠ ['.'] := by
  intro hpoint
  have htake : number (l.text ++ []) = some l.text.length := l.takes_number (Text.stops_nil _)
  rw [hpoint] at htake
  contradiction

private theorem stops_sign (l : NumericLiteral) (r : Text) :
    Text.Stops (['+', '-'].contains ·) (l.text ++ r) := by
  obtain ⟨c, cs, htext, hc⟩ := l.text_start
  rw [htext]
  apply Text.stops_cons.mpr
  rcases hc with hd | rfl
  · exact contains_eq_false (f := fun c => !c.isDigit) rfl (by rw [hd]; rfl)
  · rfl

end NumericLiteral

/-- Behind a sign no notation but the decimal one is left. -/
theorem takes_behind_sign (hsign : sign = ['+'] ∨ sign = ['-']) (h : decimalNumber.Takes t r) :
    signedNumber.Takes (sign ++ t) r := by
  have htake : (optional (oneOf ['+', '-'])).Takes sign (t ++ r) := by
    rcases hsign with rfl | rfl
    · exact (takes_one rfl _).optional
    · exact (takes_one rfl _).optional
  apply Base.takes_any_last (htake.seq h)
  intro b
  rcases hsign with rfl | rfl
  · exact zeroNumber_eq_none rfl b.behindZero _
  · exact zeroNumber_eq_none rfl b.behindZero _

theorem NumericLiteral.takes_signed (l : NumericLiteral) (hsign : IsSign sign)
    (h : sign = [] ∨ l.magnitude.isMarked = false) (hr : r.Stops isJoining) :
    signedNumber.Takes (sign ++ l.text) r := by
  have hdecimal : l.magnitude.isMarked = false → decimalNumber.Takes l.text r :=
    fun h => l.takes_decimal h (hr.mono fun _ hc => isDecimalChar_of_not_joining hc)
  rcases hsign with rfl | hsign
  · have hnone : (optional (oneOf ['+', '-'])).Takes [] (l.text ++ r) :=
      takes_optional_nil (one_eq_none (l.stops_sign r))
    exact l.takes_any hr fun h => hnone.seq (hdecimal h)
  · have hne : sign ≠ [] := by
      rcases hsign with rfl | rfl <;> simp
    exact takes_behind_sign hsign (hdecimal (h.resolve_left hne))

end Highlight.Lexeme
