import Highlight.Proofs.Html.Handover
import Highlight.Proofs.Text.Bytes
import Mathlib.Order.Bounds.Basic
/-! # Searching for a closing tag

A closing tag can be searched for in a copy of the line in lower case, from one place of its mark to
the next one behind that mark. Since the mark begins with a character that it does not have again,
no place is passed over, and since letters keep their size, an offset into the copy is one into the
line. So the search comes to the first offset in bytes at which the line has the closing tag.
-/
namespace Highlight

namespace Text

variable {t needle : Text} {n : Nat}

/-- Offset in bytes of the first place at which a text stands in another one. -/
def locate? (needle : Text) : Text → Option Nat
  | [] => if needle.isEmpty then some 0 else none
  | c :: cs =>
    if needle.isPrefixOf (c :: cs) then some 0 else (locate? needle cs).map (c.utf8Size + ·)

private theorem locate?_eq_none (h : locate? needle t = none) (front back : Text) :
    t ≠ front ++ (needle ++ back) := by
  induction t generalizing front with
  | nil =>
    intro heq
    obtain ⟨-, hrest⟩ := List.append_eq_nil_iff.mp heq.symm
    obtain ⟨rfl, -⟩ := List.append_eq_nil_iff.mp hrest
    contradiction
  | cons c cs ih =>
    intro heq
    by_cases hprefix : needle.isPrefixOf (c :: cs) = true
    · simp [locate?, hprefix] at h
    · cases front with
      | nil =>
        apply hprefix
        rw [List.isPrefixOf_iff_prefix, heq]
        exact List.prefix_append needle back
      | cons d front =>
        have hlater : locate? needle cs = none := by simpa [locate?, hprefix] using h
        exact ih hlater front (List.tail_eq_of_cons_eq heq)

private theorem locate?_eq_some (h : locate? needle t = some n) :
    ∃ front back, t = front ++ (needle ++ back) ∧ utf8Size front = n ∧
      ∀ earlier later, t = earlier ++ (needle ++ later) → front.length ≤ earlier.length := by
  induction t generalizing n with
  | nil =>
    cases needle with
    | nil => exact ⟨[], [], rfl, Option.some.inj h, fun _ _ _ => Nat.zero_le _⟩
    | cons d needle => contradiction
  | cons c cs ih =>
    by_cases hprefix : needle.isPrefixOf (c :: cs) = true
    · obtain ⟨back, hback⟩ := List.isPrefixOf_iff_prefix.mp hprefix
      obtain rfl : 0 = n := by simpa [locate?, hprefix] using h
      exact ⟨[], back, hback.symm, rfl, fun _ _ _ => Nat.zero_le _⟩
    · obtain ⟨k, hk, rfl⟩ : ∃ k, locate? needle cs = some k ∧ c.utf8Size + k = n := by
        simpa [locate?, hprefix] using h
      obtain ⟨front, back, rfl, rfl, hfirst⟩ := ih hk
      refine ⟨c :: front, back, rfl, rfl, ?_⟩
      intro earlier later heq
      cases earlier with
      | nil =>
        refine absurd (List.isPrefixOf_iff_prefix.mpr ?_) hprefix
        rw [heq]
        exact List.prefix_append needle later
      | cons d earlier =>
        exact Nat.succ_le_succ (hfirst earlier later (List.tail_eq_of_cons_eq heq))

private theorem utf8Size_toLower (c : Char) : c.toLower.utf8Size = c.utf8Size := by
  rcases toLower_cases c with hsame | ⟨hlo, hhi, hlower⟩
  · rw [hsame]
  · have hone : ∀ d : Char, d.toNat ≤ 127 → d.utf8Size = 1 := fun d hd =>
      Char.utf8Size_eq_one_iff.mpr (UInt32.le_iff_toNat_le.mpr hd)
    rw [hone c (by omega), hone c.toLower (by omega)]

private theorem utf8Size_lowercase (t : Text) : utf8Size (lowercase t) = utf8Size t := by
  induction t with
  | nil => rfl
  | cons c t ih =>
    rw [utf8Size_cons, ← ih, ← utf8Size_toLower]
    rfl

private theorem lowercase_append (t u : Text) : lowercase (t ++ u) = lowercase t ++ lowercase u :=
  List.map_append

private theorem cut?_lowercase_append (front back : Text) :
    cut? (lowercase (front ++ back)) (utf8Size front) = some (lowercase front, lowercase back) := by
  rw [lowercase_append, ← utf8Size_lowercase front]
  exact cut?_append _ _

end Text

namespace Html

open Text (utf8 utf8Size)

variable {name front rest mark : Text}

def closingMark (name : Text) : Text := '<' :: '/' :: name

def endsName (c : Char) : Bool := c == '>' || c == '/' || Text.isBlank c

/-- The search for a closing tag from an offset on, in a line in lower case. There is no answer if
it would cut the line inside of a character. -/
def searchFrom? (name lowered : Text) (start : Nat) : Option (Option Nat) :=
  match lowered.cut? start with
  | none => none
  | some (_, rest) =>
    match Text.locate? (closingMark name) rest with
    | none => some none
    | some skipped =>
      let place := start + skipped
      let behind := place + utf8Size (closingMark name)
      match _hbehind : lowered.cut? behind with
      | none => none
      | some (_, after) =>
        if after.head?.all endsName then some (some place) else searchFrom? name lowered behind
termination_by utf8Size lowered - start
decreasing_by
  obtain ⟨hline, hsize⟩ := Text.cut?_eq_some.mp _hbehind
  have hmark : 0 < utf8Size (closingMark name) := Nat.add_pos_left (Char.utf8Size_pos _) _
  have hle : behind ≤ utf8Size lowered := by
    rw [hline, Text.utf8Size_append, hsize]
    exact Nat.le_add_right _ _
  omega

section Equations

variable {lowered before rest behind after : Text} {start skipped : Nat}

private theorem searchFrom?_without_mark (hstart : lowered.cut? start = some (before, rest))
    (hfind : Text.locate? (closingMark name) rest = none) :
    searchFrom? name lowered start = some none := by
  rw [searchFrom?]
  simp only [hstart, hfind]

private theorem searchFrom?_at_mark (hstart : lowered.cut? start = some (before, rest))
    (hfind : Text.locate? (closingMark name) rest = some skipped)
    (hbehind : lowered.cut? (start + skipped + utf8Size (closingMark name)) =
      some (behind, after)) :
    searchFrom? name lowered start =
      if after.head?.all endsName then some (some (start + skipped))
      else searchFrom? name lowered (start + skipped + utf8Size (closingMark name)) := by
  rw [searchFrom?]
  simp only [hstart, hfind]
  split
  · rename_i hnone
    rw [hbehind] at hnone
    contradiction
  · rename_i hsome
    obtain ⟨-, rfl⟩ := Prod.mk.inj (Option.some.inj (hbehind.symm.trans hsome))
    rfl

end Equations

private theorem endsName_toLower (c : Char) : endsName c.toLower = endsName c := by
  have hletter : ∀ d : Char, 65 ≤ d.toNat → d.toNat ≤ 122 → endsName d = false := by
    intro d hlo hhi
    have hclose : d ≠ '>' := by
      rintro rfl
      contradiction
    have hslash : d ≠ '/' := by
      rintro rfl
      contradiction
    have hblank : Text.isBlank d = false := by
      simp [Text.isBlank]
      omega
    simp [endsName, hclose, hslash, hblank]
  rcases Text.toLower_cases c with hsame | ⟨hlo, hhi, hlower⟩
  · rw [hsame]
  · rw [hletter c hlo (by omega), hletter c.toLower (by omega) (by omega)]

private theorem all_endsName_lowercase (t : Text) :
    (Text.lowercase t).head?.all endsName = t.head?.all endsName := by
  cases t with
  | nil => rfl
  | cons c cs => exact endsName_toLower c

private theorem startsClosing_append_iff (hmark : Text.lowercase mark = closingMark name)
    (rest : Text) : StartsClosing name (mark ++ rest) ↔ rest.head?.all endsName = true := by
  have hends : (∀ c ∈ rest.head?, c = '>' ∨ c = '/' ∨ Text.isBlank c = true) ↔
      rest.head?.all endsName = true := by
    simp [Option.all_eq_true, endsName, or_assoc]
  rw [← hends]
  constructor
  · rintro ⟨mark', rest', heq, hmark', hrest'⟩
    have hlength : mark.length = mark'.length := by
      have hlower := congrArg List.length (hmark.trans hmark'.symm)
      rwa [Text.lowercase, Text.lowercase, List.length_map, List.length_map] at hlower
    obtain ⟨-, rfl⟩ := List.append_inj heq hlength
    exact hrest'
  · exact fun h => ⟨mark, rest, rfl, hmark, h⟩

private theorem StartsClosing.marked {text : Text} (h : StartsClosing name text) :
    ∃ after, Text.lowercase text = closingMark name ++ after := by
  obtain ⟨mark, rest, rfl, hmark, -⟩ := h
  exact ⟨Text.lowercase rest, by rw [Text.lowercase_append, hmark, closingMark]⟩

private theorem StartsClosing.head {c : Char} {cs : Text} (h : StartsClosing name (c :: cs)) :
    c.toLower = '<' := by
  obtain ⟨mark, rest, heq, hmark, -⟩ := h
  cases mark with
  | nil => contradiction
  | cons d mark =>
    obtain rfl := List.head_eq_of_cons_eq heq
    exact List.head_eq_of_cons_eq hmark

private theorem findClosingTag?_append
    (h : ∀ earlier later, front = earlier ++ later → later ≠ [] →
      ¬ StartsClosing name (later ++ rest)) :
    findClosingTag? name (front ++ rest) = (findClosingTag? name rest).map (front.length + ·) := by
  induction front with
  | nil => simp
  | cons c front ih =>
    have hbegins : ¬ beginsClosingTag name (c :: (front ++ rest)) = true :=
      mt beginsClosingTag_iff.mp (h [] (c :: front) rfl (List.cons_ne_nil c front))
    have hfront := ih fun earlier later heq => h (c :: earlier) later (congrArg (c :: ·) heq)
    rw [List.cons_append, findClosingTag?, if_neg hbegins, hfront, Option.map_map, List.length_cons]
    congr 1
    funext k
    simp only [Function.comp_apply]
    omega

/-- Offset in bytes of the first closing tag of an element. -/
def closingOffset? (name text : Text) : Option Nat :=
  (findClosingTag? name text).map fun k => utf8Size (text.take k)

private theorem closingOffset?_append
    (h : ∀ earlier later, front = earlier ++ later → later ≠ [] →
      ¬ StartsClosing name (later ++ rest)) :
    closingOffset? name (front ++ rest) = (closingOffset? name rest).map (utf8Size front + ·) := by
  rw [closingOffset?, findClosingTag?_append h, closingOffset?, Option.map_map, Option.map_map]
  congr 1
  funext k
  rw [Function.comp_apply, Function.comp_apply, List.take_length_add_append, Text.utf8Size_append]

private theorem closingOffset?_first (h : FirstClosing name front rest) :
    closingOffset? name (front ++ rest) = some (utf8Size front) := by
  rw [closingOffset?, findClosingTag?_eq_some.mpr h, Option.map_some, List.take_left]

/-- Between two parts of a text is a mark, and no closing tag starts before it. -/
structure FirstMark (name before mark after : Text) : Prop where
  mark_eq : Text.lowercase mark = closingMark name
  first : ∀ earlier later, before ++ (mark ++ after) = earlier ++ later →
    StartsClosing name later → before.length ≤ earlier.length

section FirstMark

variable {before after : Text}

private theorem not_closes_of_locate?
    (h : Text.locate? (closingMark name) (Text.lowercase rest) = none) : ¬ Closes name rest := by
  rintro ⟨earlier, later, rfl, hstarts⟩
  obtain ⟨after, hafter⟩ := hstarts.marked
  apply Text.locate?_eq_none h (Text.lowercase earlier) after
  rw [Text.lowercase_append, hafter]

private theorem exists_firstMark {skipped : Nat}
    (h : Text.locate? (closingMark name) (Text.lowercase rest) = some skipped) :
    ∃ before mark after, rest = before ++ (mark ++ after) ∧ utf8Size before = skipped ∧
      FirstMark name before mark after := by
  obtain ⟨_, _, hsplit, rfl, hfirst⟩ := Text.locate?_eq_some h
  obtain ⟨before, _, rfl, rfl, hmarked⟩ := List.map_eq_append_iff.mp hsplit
  obtain ⟨mark, after, rfl, hmark, rfl⟩ := List.map_eq_append_iff.mp hmarked
  refine ⟨before, mark, after, rfl, (Text.utf8Size_lowercase before).symm, hmark, ?_⟩
  intro earlier later hline hstarts
  obtain ⟨behind, hbehind⟩ := hstarts.marked
  have hle := hfirst (Text.lowercase earlier) behind
    (by rw [hline, Text.lowercase_append, hbehind])
  rwa [List.length_map, Text.lowercase, List.length_map] at hle

private theorem FirstMark.utf8Size_mark (h : FirstMark name before mark after) :
    utf8Size mark = utf8Size (closingMark name) := by
  rw [← h.mark_eq, Text.utf8Size_lowercase]

private theorem FirstMark.not_startsClosing (h : FirstMark name before mark after)
    (hname : '<' ∉ name) (hends : ¬ after.head?.all endsName = true) {earlier later : Text}
    (hcut : before ++ mark = earlier ++ later) (hlater : later ≠ []) :
    ¬ StartsClosing name (later ++ after) := by
  intro hstarts
  have hle : before.length ≤ earlier.length := by
    apply h.first earlier (later ++ after) _ hstarts
    rw [← List.append_assoc, hcut, List.append_assoc]
  obtain ⟨skipped, rfl⟩ : before <+: earlier :=
    List.prefix_of_prefix_length_le (List.prefix_append before mark) ⟨later, hcut.symm⟩ hle
  rw [List.append_assoc, List.append_cancel_left_eq] at hcut
  subst hcut
  cases skipped with
  | nil => exact hends ((startsClosing_append_iff h.mark_eq after).mp hstarts)
  | cons d skipped =>
    -- behind the first character of the mark there is no other mark
    obtain ⟨c, cs, rfl⟩ := List.exists_cons_of_ne_nil hlater
    have hmem : c.toLower ∈ '/' :: name := by
      rw [← List.tail_eq_of_cons_eq h.mark_eq]
      exact List.mem_map_of_mem (by simp)
    rw [hstarts.head] at hmem
    exact hname ((List.mem_cons.mp hmem).resolve_left (by decide))

private theorem FirstMark.closingOffset?_eq (h : FirstMark name before mark after)
    (hname : '<' ∉ name) :
    closingOffset? name (before ++ (mark ++ after)) =
      if after.head?.all endsName then some (utf8Size before)
      else (closingOffset? name after).map (utf8Size (before ++ mark) + ·) := by
  by_cases hends : after.head?.all endsName = true
  · rw [if_pos hends]
    exact closingOffset?_first ⟨(startsClosing_append_iff h.mark_eq after).mpr hends, h.first⟩
  · rw [if_neg hends, ← List.append_assoc]
    exact closingOffset?_append fun _ _ => h.not_startsClosing hname hends

end FirstMark

/-- Behind any front the search answers as if the front were not there. -/
theorem searchFrom?_eq (hname : '<' ∉ name) (front rest : Text) :
    searchFrom? name (Text.lowercase (front ++ rest)) (utf8Size front) =
      some ((closingOffset? name rest).map (utf8Size front + ·)) := by
  -- the front grows by what is gone over, so the rest behind it gets shorter
  induction hlength : rest.length using Nat.strong_induction_on generalizing front rest with
  | h length ih =>
    subst hlength
    have hstart := Text.cut?_lowercase_append front rest
    cases hfind : Text.locate? (closingMark name) (Text.lowercase rest) with
    | none =>
      have hopen := not_closes_of_locate? hfind
      rw [searchFrom?_without_mark hstart hfind, closingOffset?, findClosingTag?_eq_none.mpr hopen]
      rfl
    | some skipped =>
      obtain ⟨before, mark, after, rfl, rfl, hmark⟩ := exists_firstMark hfind
      have hoffset : utf8Size front + utf8Size before + utf8Size (closingMark name) =
          utf8Size (front ++ (before ++ mark)) := by
        rw [← hmark.utf8Size_mark]
        simp only [Text.utf8Size_append, Nat.add_assoc]
      have hline : front ++ (before ++ (mark ++ after)) = front ++ (before ++ mark) ++ after := by
        simp only [List.append_assoc]
      have hbehind := Text.cut?_lowercase_append (front ++ (before ++ mark)) after
      rw [← hoffset, ← hline] at hbehind
      rw [searchFrom?_at_mark hstart hfind hbehind, all_endsName_lowercase,
        hmark.closingOffset?_eq hname]
      by_cases hends : after.head?.all endsName = true
      · simp only [hends, if_true, Option.map_some]
      · have hshorter : after.length < (before ++ (mark ++ after)).length := by
          have hne : mark ≠ [] := by
            rintro rfl
            exact absurd hmark.mark_eq (by simp [Text.lowercase, closingMark])
          have hpos := List.length_pos_iff.mpr hne
          simp only [List.length_append]
          omega
        rw [if_neg hends, if_neg hends, hoffset, hline, ih _ hshorter _ _ rfl, Option.map_map]
        congr 2
        funext k
        rw [Function.comp_apply, Text.utf8Size_append, Nat.add_assoc]

/-- The bytes of a text at the offset are those of a text that starts with the closing tag. -/
def ClosesAt (name text : Text) (n : Nat) : Prop :=
  ∃ rest, (utf8 text).drop n = utf8 rest ∧ StartsClosing name rest

private theorem closesAt_iff {text : Text} {n : Nat} :
    ClosesAt name text n ↔
      ∃ front rest, text = front ++ rest ∧ utf8Size front = n ∧ StartsClosing name rest := by
  constructor
  · rintro ⟨rest, hdrop, hstarts⟩
    obtain ⟨front, rfl, hsize⟩ := (Text.drop_utf8_eq_iff hstarts.ne_nil).mp hdrop
    exact ⟨front, rest, rfl, hsize, hstarts⟩
  · rintro ⟨front, rest, rfl, hsize, hstarts⟩
    exact ⟨rest, (Text.drop_utf8_eq_iff hstarts.ne_nil).mpr ⟨front, rfl, hsize⟩, hstarts⟩

private theorem FirstClosing.isLeast (h : FirstClosing name front rest) :
    IsLeast {n | ClosesAt name (front ++ rest) n} (utf8Size front) := by
  constructor
  · exact closesAt_iff.mpr ⟨front, rest, rfl, rfl, h.starts⟩
  · intro n hn
    obtain ⟨earlier, later, hline, rfl, hstarts⟩ := closesAt_iff.mp hn
    obtain ⟨more, rfl⟩ : front <+: earlier :=
      List.prefix_of_prefix_length_le (List.prefix_append front rest) ⟨later, hline.symm⟩
        (h.first earlier later hline hstarts)
    rw [Text.utf8Size_append]
    exact Nat.le_add_right _ _

private theorem closingOffset?_eq_none {text : Text} :
    closingOffset? name text = none ↔ ∀ n, ¬ ClosesAt name text n := by
  rw [closingOffset?, Option.map_eq_none_iff, findClosingTag?_eq_none]
  constructor
  · intro hopen n hn
    obtain ⟨front, rest, hline, -, hstarts⟩ := closesAt_iff.mp hn
    exact hopen ⟨front, rest, hline, hstarts⟩
  · rintro hnone ⟨front, rest, hline, hstarts⟩
    exact hnone _ (closesAt_iff.mpr ⟨front, rest, hline, rfl, hstarts⟩)

private theorem closingOffset?_eq_some {text : Text} {n : Nat} :
    closingOffset? name text = some n ↔ IsLeast {m | ClosesAt name text m} n := by
  by_cases hcloses : Closes name text
  · obtain ⟨front, rest, rfl, hfirst⟩ := hcloses.exists_first
    rw [closingOffset?_first hfirst, Option.some.injEq]
    constructor
    · rintro rfl
      exact hfirst.isLeast
    · exact hfirst.isLeast.unique
  · have hnone : closingOffset? name text = none := by
      rw [closingOffset?, findClosingTag?_eq_none.mpr hcloses, Option.map_none]
    constructor
    · intro hsome
      rw [hnone] at hsome
      contradiction
    · intro hleast
      exact absurd hleast.1 (closingOffset?_eq_none.mp hnone n)

/-- For every name without the first character of the mark the search on the copy in lower case
comes to an end in every text and never cuts it inside of a character. It finds the least offset at
which the closing tag is, and nothing exactly when there is none; such an offset is a boundary. -/
theorem closing_tag_located (hname : '<' ∉ name) (text : Text) :
    searchFrom? name text.lowercase 0 = some (closingOffset? name text) ∧
      (∀ n, closingOffset? name text = some n ↔ IsLeast {m | ClosesAt name text m} n) ∧
      (closingOffset? name text = none ↔ ∀ n, ¬ ClosesAt name text n) ∧
      ∀ n, ClosesAt name text n → text.IsBoundary n := by
  refine ⟨?_, fun n => closingOffset?_eq_some, closingOffset?_eq_none, ?_⟩
  · have hsearch := searchFrom?_eq hname [] text
    rw [List.nil_append, Text.utf8Size_nil] at hsearch
    rw [hsearch]
    simp
  · intro n hn
    obtain ⟨front, rest, hline, hsize, -⟩ := closesAt_iff.mp hn
    exact ⟨front, rest, hline, hsize⟩

/-- Behind a character of two bytes the mark of a longer name is gone over, and the closing tag in
capitals is found in front of an ideographic space. There is none of another name. -/
theorem closing_tag_located_capitals :
    let script := "script".toList
    let style := "style".toList
    let text : Text := "é</scripts></SCRIPT\u3000".toList
    ('<' ∉ script ∧ '<' ∉ style) ∧
      searchFrom? script text.lowercase 0 = some (some 12) ∧
      IsLeast {n | ClosesAt script text n} 12 ∧ text.IsBoundary 12 ∧
      searchFrom? style text.lowercase 0 = some none ∧ ∀ n, ¬ ClosesAt style text n := by
  intro script style text
  have hscript : '<' ∉ script := by decide +kernel
  have hstyle : '<' ∉ style := by decide +kernel
  have hfound : closingOffset? script text = some 12 := by decide +kernel
  have hnone : closingOffset? style text = none := by decide +kernel
  obtain ⟨hsearch, hleast, -, hboundary⟩ := closing_tag_located hscript text
  obtain ⟨hopen, -, habsent, -⟩ := closing_tag_located hstyle text
  have h12 := (hleast 12).mp hfound
  rw [hfound] at hsearch
  rw [hnone] at hopen
  exact ⟨⟨hscript, hstyle⟩, hsearch, h12, hboundary 12 h12.1, hopen, habsent.mp hnone⟩

end Html
end Highlight
