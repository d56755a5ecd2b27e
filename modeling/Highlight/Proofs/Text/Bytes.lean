import Highlight.Text
import Mathlib.Order.Bounds.Basic
/-! # Texts in bytes

Offsets into texts may count the bytes of their encoding in UTF-8. Such an offset is a boundary
where a character begins or the text ends; only there can the text be cut, and only there can the
encoding of another text be found in its bytes.
-/
namespace Highlight.Text

variable {t u front back : Text} {n : Nat}

/-- The encoding of a text. -/
def utf8 (t : Text) : List UInt8 := t.flatMap String.utf8EncodeChar

private theorem utf8_cons (c : Char) (t : Text) :
    utf8 (c :: t) = String.utf8EncodeChar c ++ utf8 t := rfl

private theorem utf8_append (t u : Text) : utf8 (t ++ u) = utf8 t ++ utf8 u := List.flatMap_append

private theorem length_utf8 (t : Text) : (utf8 t).length = utf8Size t := by
  induction t with
  | nil => rfl
  | cons c t ih =>
    rw [utf8_cons, List.length_append, String.length_utf8EncodeChar, ih, utf8Size_cons]

/-- Different texts have different encodings. -/
theorem utf8_injective (h : utf8 t = utf8 u) : t = u := by
  have hbytes : (String.ofList t).toByteArray = (String.ofList u).toByteArray := by
    rw [String.toByteArray_ofList, String.toByteArray_ofList]
    exact congrArg List.toByteArray h
  exact String.ofList_injective (String.toByteArray_inj.mp hbytes)

/-- At the offset a character begins or the text ends. -/
def IsBoundary (t : Text) (n : Nat) : Prop := ∃ front back, t = front ++ back ∧ utf8Size front = n

/-- The boundaries of a text are the valid positions of it as a string. -/
theorem isBoundary_iff_isValid :
    IsBoundary t n ↔ String.Pos.Raw.IsValid (String.ofList t) ⟨n⟩ := by
  have hsize : ∀ u : Text, (String.ofList u).utf8ByteSize = utf8Size u := by
    intro u
    rw [← length_utf8, ← String.size_toByteArray, String.toByteArray_ofList]
    simp [List.utf8Encode, utf8]
  rw [String.Pos.Raw.isValid_ofList]
  constructor
  · rintro ⟨front, back, rfl, rfl⟩
    exact ⟨front.length, by rw [hsize, List.take_left]⟩
  · rintro ⟨i, hi⟩
    exact ⟨t.take i, t.drop i, (List.take_append_drop i t).symm, (hi.trans (hsize _)).symm⟩

theorem IsBoundary.le (h : IsBoundary t n) : n ≤ utf8Size t := by
  obtain ⟨front, back, rfl, rfl⟩ := h
  simp

private theorem isBoundary_of_firstByte {b : UInt8} (hget : (utf8 t)[n]? = some b)
    (hb : b.IsUTF8FirstByte) : IsBoundary t n := by
  induction t generalizing n with
  | nil => simp [utf8] at hget
  | cons c t ih =>
    rw [utf8_cons] at hget
    rcases Nat.lt_or_ge n (String.utf8EncodeChar c).length with hinside | hbehind
    · rw [List.getElem?_append_left hinside] at hget
      obtain ⟨_, rfl⟩ := List.getElem?_eq_some_iff.mp hget
      obtain rfl := UInt8.isUTF8FirstByte_getElem_utf8EncodeChar.mp hb
      exact ⟨[], c :: t, rfl, rfl⟩
    · rw [List.getElem?_append_right hbehind] at hget
      obtain ⟨front, back, rfl, hsize⟩ := ih hget
      rw [String.length_utf8EncodeChar] at hbehind hsize
      refine ⟨c :: front, back, rfl, ?_⟩
      rw [utf8Size_cons, hsize, Nat.add_sub_cancel' hbehind]

/-- Another text is encoded in the last bytes of a text only if it is the end of the text. -/
theorem drop_utf8_eq_iff (hne : u ≠ []) :
    (utf8 t).drop n = utf8 u ↔ ∃ front, t = front ++ u ∧ utf8Size front = n := by
  constructor
  · intro hdrop
    obtain ⟨c, cs, rfl⟩ := List.exists_cons_of_ne_nil hne
    have hpos : 0 < (String.utf8EncodeChar c).length := by
      rw [String.length_utf8EncodeChar]
      exact c.utf8Size_pos
    have hfirst : (utf8 t)[n]? = some ((String.utf8EncodeChar c).get ⟨0, hpos⟩) := by
      rw [← List.head?_drop, hdrop, utf8_cons, List.head?_append, List.head?_eq_getElem?,
        List.getElem?_eq_getElem hpos, Option.some_or]
      rfl
    obtain ⟨front, back, rfl, rfl⟩ :=
      isBoundary_of_firstByte hfirst UInt8.isUTF8FirstByte_getElem_zero_utf8EncodeChar
    rw [utf8_append, ← length_utf8, List.drop_left] at hdrop
    exact ⟨front, by rw [utf8_injective hdrop], rfl⟩
  · rintro ⟨front, rfl, rfl⟩
    rw [utf8_append, ← length_utf8, List.drop_left]

/-- The two parts of a text in front of an offset and behind it, if it is a boundary. -/
def cut? : Text → Nat → Option (Text × Text)
  | t, 0 => some ([], t)
  | [], _ + 1 => none
  | c :: cs, n + 1 =>
    if c.utf8Size ≤ n + 1 then
      (cut? cs (n + 1 - c.utf8Size)).map fun (front, back) => (c :: front, back)
    else none

theorem cut?_eq_some :
    cut? t n = some (front, back) ↔ t = front ++ back ∧ utf8Size front = n := by
  fun_induction cut? t n generalizing front with
  | case1 t =>
    rw [utf8Size_eq_zero]
    constructor
    · intro hcut
      obtain ⟨rfl, rfl⟩ := Prod.mk.inj (Option.some.inj hcut)
      exact ⟨rfl, rfl⟩
    · rintro ⟨rfl, rfl⟩
      rfl
  | case2 n =>
    simp only [reduceCtorEq, false_iff, not_and]
    intro hempty
    obtain ⟨rfl, -⟩ := List.append_eq_nil_iff.mp hempty.symm
    exact Nat.zero_ne_add_one n
  | case3 n c cs hle ih =>
    rw [Option.map_eq_some_iff]
    constructor
    · rintro ⟨⟨front', back'⟩, hcut, heq⟩
      obtain ⟨rfl, rfl⟩ := Prod.mk.inj heq
      obtain ⟨rfl, hsize⟩ := ih.mp hcut
      exact ⟨rfl, by rw [utf8Size_cons, hsize, Nat.add_sub_cancel' hle]⟩
    · rintro ⟨hcut, hsize⟩
      cases front with
      | nil => contradiction
      | cons d front =>
        obtain ⟨rfl, rfl⟩ := List.cons_eq_cons.mp hcut
        rw [utf8Size_cons] at hsize
        exact ⟨(front, back), ih.mpr ⟨rfl, by omega⟩, rfl⟩
  | case4 n c cs hgt =>
    simp only [reduceCtorEq, false_iff, not_and]
    intro hcut hsize
    cases front with
    | nil => contradiction
    | cons d front =>
      obtain ⟨rfl, -⟩ := List.cons_eq_cons.mp hcut
      rw [utf8Size_cons] at hsize
      omega

theorem cut?_append (front back : Text) :
    cut? (front ++ back) (utf8Size front) = some (front, back) := cut?_eq_some.mpr ⟨rfl, rfl⟩

theorem isSome_cut?_iff : (cut? t n).isSome = true ↔ IsBoundary t n := by
  rw [Option.isSome_iff_exists]
  constructor
  · rintro ⟨⟨front, back⟩, hcut⟩
    exact ⟨front, back, cut?_eq_some.mp hcut⟩
  · rintro ⟨front, back, rfl, rfl⟩
    exact ⟨_, cut?_append front back⟩

/-- The part of a text between two offsets, if both are boundaries. -/
def between? (t : Text) (start stop : Nat) : Option Text :=
  (cut? t stop).bind fun (front, _) => (cut? front start).map Prod.snd

theorem between?_append (front part back : Text) :
    between? (front ++ part ++ back) (utf8Size front) (utf8Size (front ++ part)) = some part := by
  simp only [between?, cut?_append, Option.bind_some, Option.map_some]

theorem takeBytes_prefix (n : Nat) (t : Text) : takeBytes n t <+: t := by
  induction t generalizing n with
  | nil => simp [takeBytes]
  | cons c cs ih =>
    rw [takeBytes]
    split
    · exact (List.prefix_cons_inj c).mpr (ih _)
    · exact List.nil_prefix

/-- What fits into a number of bytes ends at the greatest boundary among them. -/
theorem isGreatest_takeBytes (t : Text) (n : Nat) :
    IsGreatest {m | IsBoundary t m ∧ m ≤ n} (utf8Size (takeBytes n t)) := by
  constructor
  · obtain ⟨back, hback⟩ := takeBytes_prefix n t
    refine ⟨⟨_, back, hback.symm, rfl⟩, ?_⟩
    clear back hback
    induction t generalizing n with
    | nil => simp [takeBytes]
    | cons c cs ih =>
      rw [takeBytes]
      split
      · rename_i hfits
        rw [utf8Size_cons, ← Nat.le_sub_iff_add_le' hfits]
        exact ih _
      · exact Nat.zero_le n
  · rintro m ⟨⟨front, back, rfl, rfl⟩, hle⟩
    induction front generalizing n with
    | nil => exact Nat.zero_le _
    | cons c front ih =>
      rw [utf8Size_cons] at hle
      have hfits : c.utf8Size ≤ n := by omega
      rw [List.cons_append, takeBytes, if_pos hfits, utf8Size_cons, utf8Size_cons]
      exact Nat.add_le_add_left (ih _ (by omega)) _

end Highlight.Text
