import Highlight.Proofs.JavaScript.Template
import Highlight.Proofs.Language.JavaScript
import Highlight.Proofs.Scanner.Front
/-! # The end of a placeholder

A placeholder ends at the first closing brace of its code, whatever braces that code has opened.
Up to there the code is read as it would be read alone, and what is left of it is text of the
template.
-/
namespace Highlight.JavaScript

open Lexeme Pattern

/-- A character that begins neither a string nor a template nor a comment and escapes nothing:
letters, digits, blanks, braces and others. -/
def isCodeChar (c : Char) : Bool := isStringChar c && c != '/'

/-- A line that is a template with one placeholder. -/
def inPlaceholder (code : Text) : Text :=
  Text.backquote :: (placeholderOpen ++ code ++ ['}', Text.backquote])

/-- The tokens of the code alone. -/
def alone (code : Text) : List Token := (language.tokenizeLine code language.initial).tokens

/-- The tokens of a template with one placeholder, whose code became the tokens, and of a text
between the placeholder and the end of the template. -/
def framed (code : List Token) (text : Text) : List Token :=
  [⟨.string, [Text.backquote]⟩, ⟨.string, placeholderOpen⟩] ++ code ++ [⟨.string, ['}']⟩] ++
    (if text = [] then [] else [⟨.string, text⟩]) ++ [⟨.string, [Text.backquote]⟩]

section Alone

private theorem identifier_stopsAt : identifier.StopsAt '}' :=
  (stopsAt_one rfl).seq (stopsAt_many rfl)

private theorem call_stopsAt : (seq optionalBlanks (char '(')).StopsAt '}' :=
  (stopsAt_many rfl).seq (stopsAt_char (by decide))

private theorem number_stopsAt : number.StopsAt '}' := by
  have hbig : bigSuffix.StopsAt '}' := (stopsAt_char (by decide)).optional
  have hend : (all [bigSuffix]).StopsAt '}' := hbig.seq (stopsAt_all_nil _)
  have hzero : (char '0').StopsAt '}' := stopsAt_char (by decide)
  have hhex : hexNumber.StopsAt '}' :=
    hzero.seq ((stopsAt_one rfl).seq ((stopsAt_many1 rfl).seq hend))
  have hbinary : binaryNumber.StopsAt '}' :=
    hzero.seq ((stopsAt_one rfl).seq ((stopsAt_many1 rfl).seq hend))
  have hoctal : octalNumber.StopsAt '}' :=
    hzero.seq ((stopsAt_one rfl).optional.seq ((stopsAt_many1 rfl).seq hend))
  have hpoint : (char '.').StopsAt '}' := stopsAt_char (by decide)
  have hmantissa : mantissa.StopsAt '}' :=
    ((stopsAt_many1 rfl).seq (hpoint.seq (stopsAt_many rfl)).optional).alt
      (hpoint.seq (stopsAt_many1 rfl))
  have hexponent : exponent.StopsAt '}' :=
    (stopsAt_one rfl).seq
      ((stopsAt_one rfl).optional.seq ((stopsAt_many1 rfl).seq (stopsAt_all_nil _)))
  have hdecimal : decimalNumber.StopsAt '}' := hmantissa.seq (hexponent.optional.seq hend)
  exact hhex.alt (hbinary.alt (hoctal.alt (hdecimal.alt (stopsAt_any_nil _))))

private theorem keyword?_stopsAt : Scanner.StopsAt '}' keyword? := by
  intro s r
  rw [keyword?, keyword?, Scanner.before_lastMatch]
  split
  · rfl
  · dsimp only [Scanner.peek?]
    rw [Scanner.before_rest, identifier_stopsAt.same]
    cases hn : identifier s.rest with
    | none => rfl
    | some n =>
      have hlength := (identifier_stopsAt.within _ n hn).1
      have htake : (s.rest ++ '}' :: r).take n = s.rest.take n :=
        List.take_append_of_le_length hlength
      cases hkind : wordKind? (s.rest.take n) with
      | none => simp [htake, hkind]
      | some kind =>
        simp [htake, hkind, List.length_take, Nat.min_eq_left hlength,
          Scanner.advance_before hlength, Scanner.emit_before]

variable {s : Scanner} {c : Char} {cs t : Text}

private theorem plain?_before (hs : s.rest = c :: cs) (h : c ≠ '/') (r : Text) :
    plain? (s.before ('}' :: r)) = (plain? s).map (·.before ('}' :: r)) := by
  have hs' : (s.before ('}' :: r)).rest = c :: (cs ++ '}' :: r) := by
    rw [Scanner.before_rest, hs, List.cons_append]
  have hoperators : ∀ t ∈ operators, '}' ∉ t := by decide
  have hblanks : blanks.StopsAt '}' := stopsAt_many1 rfl
  have hsymbols := (Scanner.stopsAt_tokenAny hoperators .operator).orElse
    (Scanner.stopsAt_token hblanks .whitespace)
  have hnumber := (Scanner.stopsAt_token number_stopsAt .number).orElse hsymbols
  have hname := (Scanner.stopsAt_token identifier_stopsAt .identifier).orElse hnumber
  have hwords :=
    (Scanner.stopsAt_tokenBefore identifier_stopsAt call_stopsAt .callIdentifier).orElse hname
  rw [plain?_of_not_slash hs h, plain?_of_not_slash hs' h]
  exact (keyword?_stopsAt.orElse hwords) s r

private theorem scan_before (hs : s.rest = c :: cs) (hc : codeMarks.contains c = false) (d : Nat)
    (r : Text) :
    (language.scan s (Place.code 0).state).2 = (Place.code 0).state ∧
    language.scan (s.before ('}' :: r)) (Place.code d).state =
      ((language.scan s (Place.code 0).state).1.before ('}' :: r), (Place.code d).state) := by
  have hs' : (s.before ('}' :: r)).rest = c :: (cs ++ '}' :: r) := by
    rw [Scanner.before_rest, hs, List.cons_append]
  have hslash : c ≠ '/' := by
    rintro rfl
    contradiction
  rw [Place.scan_code, Place.scan_code, scanCode_of_not_mark hs hc, scanCode_of_not_mark hs' hc,
    plain?_before hs hslash]
  cases plain? s with
  | none => exact ⟨rfl, rfl⟩
  | some u => exact ⟨rfl, rfl⟩

/-- Code without marks in front of a closing brace becomes the tokens that it is alone. -/
theorem code_advances (ht : ∀ c ∈ t, codeMarks.contains c = false) (d : Nat) (last r : Text) :
    ∃ last', language.Advances last (Place.code d).state t
      (language.lex last t (Place.code 0).state).1 last' (Place.code d).state ('}' :: r) := by
  generalize hn : t.length = n
  induction n using Nat.strongRecOn generalizing t last with
  | ind n ih =>
    cases t with
    | nil => exact ⟨last, by rw [Language.lex]; exact .refl language last _ _⟩
    | cons c cs =>
      let s := Scanner.resume last (c :: cs)
      let u := (language.scan s (Place.code 0).state).1
      obtain ⟨hstay, hstep⟩ := scan_before (s := s) rfl (ht c List.mem_cons_self) d r
      have halone : language.scan s (Place.code 0).state = (u, (Place.code 0).state) :=
        Prod.ext rfl hstay
      have hbefore : language.scan (.resume last (c :: (cs ++ '}' :: r))) (Place.code d).state =
          (u.before ('}' :: r), (Place.code d).state) := hstep
      -- Both readings take the same step, and either both get ahead or both give up a character.
      have hlengths : (u.before ('}' :: r)).rest.length < (c :: (cs ++ '}' :: r)).length ↔
          u.rest.length < (c :: cs).length := by
        simp only [Scanner.before_rest, List.length_append, List.length_cons]
        omega
      by_cases hshorter : u.rest.length < (c :: cs).length
      · have hrest : ∀ d ∈ u.rest, d ∈ c :: cs := by
          obtain ⟨tokens, -, -, hcut, -⟩ := isFaithful.covers (s := s) (by simp [s, Scanner.resume])
            (Place.code 0).state
          intro d hd
          rw [show c :: cs = s.rest from rfl, hcut]
          exact List.mem_append_right _ hd
        obtain ⟨last', hmore⟩ :=
          ih u.rest.length (hn ▸ hshorter) (fun d hd => ht d (hrest d hd)) u.lastMatch rfl
        refine ⟨last', ?_⟩
        rw [Language.Advances, Language.lex_of_shorter halone hshorter, List.cons_append,
          Language.lex_of_shorter hbefore (hlengths.mpr hshorter)]
        change language.lex u.lastMatch (u.rest ++ '}' :: r) _ = _ at hmore
        rw [Scanner.before_lastMatch, Scanner.before_rest, hmore, List.append_assoc]
        rfl
      · obtain ⟨last', hmore⟩ :=
          ih cs.length (by simp [← hn]) (fun d hd => ht d (List.mem_cons_of_mem c hd)) [c] rfl
        refine ⟨last', ?_⟩
        change language.lex [c] (cs ++ '}' :: r) _ = _ at hmore
        rw [Language.Advances, Language.lex_of_not_shorter halone hshorter, List.cons_append,
          Language.lex_of_not_shorter hbefore (mt hlengths.mp hshorter), hmore, List.append_assoc]
        rfl

private theorem lex_brace (last : Text) : language.lex last ['}'] (Place.code 0).state =
    ([⟨.text, ['}']⟩], (Place.code 0).state) := by
  have hplain : plain? (.resume last ['}']) = none := by
    rw [plain?_of_not_word (c := '}') rfl (by decide) rfl]
    rfl
  have hstay : language.scan (.resume last ['}']) (Place.code 0).state =
      (.resume last ['}'], (Place.code 0).state) := by
    rw [Place.scan_code, scanCode, hplain]
    rfl
  rw [Language.lex_of_not_shorter hstay (Nat.lt_irrefl _), Language.lex]
  rfl

end Alone

section Framed

variable {c front back text : Text}

private theorem not_mark_of_isCodeChar {d : Char} (h : isCodeChar d = true) (hd : d ≠ '}') :
    codeMarks.contains d = false := by
  simp only [isCodeChar, isStringChar, Bool.and_eq_true, Bool.not_eq_true', Bool.or_eq_false_iff,
    isQuote, beq_eq_false_iff_ne, bne_iff_ne] at h
  simp [codeMarks, h, hd]

private theorem tokenizeLine_framed (hcode : ∀ d ∈ c, codeMarks.contains d = false)
    (htext : ∀ d ∈ text, isStringChar d = true) :
    language.tokenizeLine
        (Text.backquote :: (placeholderOpen ++ (c ++ '}' :: (text ++ [Text.backquote]))))
        language.initial = ⟨framed (alone c) text, language.initial⟩ := by
  obtain ⟨last, hinside⟩ := code_advances hcode 1 placeholderOpen (text ++ [Text.backquote])
  have hbehind : ∃ last', language.Advances ['}'] (Place.text 0).state text
      (if text = [] then [] else [⟨.string, text⟩]) last' (Place.text 0).state
      ([Text.backquote] ++ []) := by
    by_cases hnil : text = []
    · subst hnil
      exact ⟨['}'], .refl language _ _ _⟩
    · rw [if_neg hnil]
      exact ⟨text, advances_run 0 hnil htext (Text.stops_cons.mpr rfl) ['}']⟩
  obtain ⟨last', hbehind⟩ := hbehind
  have hentered := (advances_opens 0 []
    (placeholderOpen ++ (c ++ '}' :: (text ++ [Text.backquote])))).trans (advances_enters 0 _ _)
  have hline := (((hentered.trans hinside).trans (advances_leaves 0 last _)).trans hbehind).trans
    (advances_closes 0 last' [])
  have halone : language.lex placeholderOpen c (Place.code 0).state =
      language.lex [] c (Place.code 0).state := lex_last (by decide) (by decide) c _
  have hlex := hline.finish
  rw [halone] at hlex
  have htext : Text.backquote :: (placeholderOpen ++ (c ++ '}' :: (text ++ [Text.backquote]))) =
      [Text.backquote] ++ placeholderOpen ++ c ++ ['}'] ++ text ++ [Text.backquote] := by simp
  change LineTokens.mk (language.lex [] _ (Place.code 0).state).1
    (endLine (language.lex [] _ (Place.code 0).state).2) = _
  rw [htext, hlex]
  rfl

private theorem read_whole (hc : ∀ d ∈ c, isCodeChar d = true) (hbrace : '}' ∉ c) :
    language.tokenizeLine (inPlaceholder c) language.initial =
      ⟨framed (alone c) [], language.initial⟩ := by
  have hcode : ∀ d ∈ c, codeMarks.contains d = false :=
    fun d hd => not_mark_of_isCodeChar (hc d hd) (ne_of_mem_of_not_mem hd hbrace)
  have hline : inPlaceholder c =
      Text.backquote :: (placeholderOpen ++ (c ++ '}' :: ([] ++ [Text.backquote]))) := by
    simp [inPlaceholder]
  rw [hline]
  exact tokenizeLine_framed hcode (by simp)

private theorem read_cut (hc : ∀ d ∈ front ++ '}' :: back, isCodeChar d = true) (hbrace :
    '}' ∉ front) : language.tokenizeLine (inPlaceholder (front ++ '}' :: back)) language.initial =
      ⟨framed (alone front) (back ++ ['}']), language.initial⟩ := by
  have hcode : ∀ d ∈ front, codeMarks.contains d = false := by
    intro d hd
    exact not_mark_of_isCodeChar (hc d (List.mem_append_left _ hd)) (ne_of_mem_of_not_mem hd hbrace)
  have htext : ∀ d ∈ back ++ ['}'], isStringChar d = true := by
    intro d hd
    have hmem : d ∈ front ++ '}' :: back := by
      rw [List.mem_append, List.mem_singleton] at hd
      rw [List.mem_append, List.mem_cons]
      exact .inr hd.symm
    exact (Bool.and_eq_true_iff.mp (hc d hmem)).1
  have hline : inPlaceholder (front ++ '}' :: back) = Text.backquote ::
      (placeholderOpen ++ (front ++ '}' :: (back ++ ['}'] ++ [Text.backquote]))) := by
    simp [inPlaceholder]
  rw [hline]
  exact tokenizeLine_framed hcode htext

private theorem framed_cut_ne (hfront : ∀ d ∈ front, codeMarks.contains d = false) (back : Text) :
    framed (alone front) (back ++ ['}']) ≠ framed (alone (front ++ '}' :: back)) [] := by
  intro hsame
  rw [framed, framed, if_neg (by simp), if_pos rfl, List.append_nil] at hsame
  have hcut := List.append_cancel_right hsame
  obtain ⟨hcode, hlast⟩ := List.append_inj' hcut rfl
  obtain rfl : back = [] := by simpa using hlast
  obtain ⟨last, halone⟩ := code_advances hfront 0 [] []
  have hbrace : alone (front ++ ['}']) = alone front ++ [⟨.text, ['}']⟩] := by
    change (language.lex [] (front ++ ['}']) (Place.code 0).state).1 = _
    rw [show language.lex [] (front ++ ['}']) (Place.code 0).state = _ from halone, lex_brace]
    rfl
  rw [hbrace, ← List.append_assoc] at hcode
  obtain ⟨-, hkind⟩ := List.append_inj' hcode rfl
  contradiction

/-- Code without strings, templates and comments in a placeholder, on one line. The state behind the
line is that in front of it. The code is read as it is alone exactly if it has no closing brace;
else the first one ends the placeholder, and what stands behind that one is text of the template. -/
theorem placeholder_read (hc : ∀ d ∈ c, isCodeChar d = true) :
    (language.tokenizeLine (inPlaceholder c) language.initial).outbound = language.initial ∧
    ((language.tokenizeLine (inPlaceholder c) language.initial).tokens = framed (alone c) [] ↔
      '}' ∉ c) ∧
    ∀ front back, c = front ++ '}' :: back → '}' ∉ front →
      (language.tokenizeLine (inPlaceholder c) language.initial).tokens =
        framed (alone front) (back ++ ['}']) := by
  by_cases hbrace : '}' ∈ c
  · obtain ⟨front, back, rfl, hfront⟩ := List.eq_append_cons_of_mem hbrace
    have hcode : ∀ d ∈ front, codeMarks.contains d = false := by
      intro d hd
      exact not_mark_of_isCodeChar (hc d (List.mem_append_left _ hd))
        (ne_of_mem_of_not_mem hd hfront)
    have hread := read_cut hc hfront
    refine ⟨by rw [hread], ⟨?_, fun hno => absurd hbrace hno⟩, ?_⟩
    · intro hwhole
      rw [hread] at hwhole
      exact absurd hwhole (framed_cut_ne hcode back)
    · intro front' back' hsplit hfront'
      rw [hsplit] at hc ⊢
      rw [read_cut hc hfront']
  · rw [read_whole hc hbrace]
    refine ⟨rfl, ⟨fun _ => hbrace, fun _ => rfl⟩, ?_⟩
    rintro front back rfl -
    exact absurd (by simp) hbrace

end Framed

/-- Of a block that is open at the end of the code and one that is closed, only the first is read as
it is alone. -/
theorem placeholder_read_block :
    let opened : Text := "f()\x7b2".toList
    let closed : Text := "f()\x7b2\x7d g".toList
    let read (c : Text) := language.tokenizeLine (inPlaceholder c) language.initial
    ((∀ d ∈ opened, isCodeChar d = true) ∧ '}' ∉ opened ∧
      (read opened).outbound = language.initial ∧ (read opened).tokens = framed (alone opened) []) ∧
    ((∀ d ∈ closed, isCodeChar d = true) ∧ '}' ∈ closed ∧
      (read closed).outbound = language.initial ∧ (read closed).tokens ≠ framed (alone closed) [] ∧
      (read closed).tokens = framed (alone opened) " g\x7d".toList) := by
  intro opened closed read
  have hopened : ∀ d ∈ opened, isCodeChar d = true := List.all_eq_true.mp (by decide)
  have hclosed : ∀ d ∈ closed, isCodeChar d = true := List.all_eq_true.mp (by decide)
  obtain ⟨hinitial, hwhole, -⟩ := placeholder_read hopened
  obtain ⟨hinitial', hwhole', hcut⟩ := placeholder_read hclosed
  have hbrace : '}' ∈ closed := by decide
  refine ⟨⟨hopened, by decide, hinitial, hwhole.mpr (by decide)⟩, hclosed, hbrace, hinitial', ?_,
    hcut opened " g".toList rfl (by decide)⟩
  intro hsame
  exact hwhole'.mp hsame hbrace

/-- A pair of braces: the first of them is a text as it is alone, and the second one ends the
placeholder, so the brace behind it is text of the template. -/
theorem placeholder_ends_early :
    let braces : Text := ['{', '}']
    let read := language.tokenizeLine (inPlaceholder braces) language.initial
    alone braces = [⟨.text, ['{']⟩, ⟨.text, ['}']⟩] ∧
      read.tokens = framed [⟨.text, ['{']⟩] ['}'] ∧ read.tokens ≠ framed (alone braces) [] := by
  decide +kernel

end Highlight.JavaScript
