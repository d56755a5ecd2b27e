import Mathlib.Data.List.Forall2
import Highlight.Proofs.Document.Lines
import Highlight.Proofs.JavaScript.Template
/-! # Reading nested templates

However deep templates nest and wherever their lines end, every part of them is read as what it is.
The grammar is followed on the level of elements, each of which leads from one place to another.
Lines read elements piece by piece, so it does not matter where they end.
-/
namespace Highlight.JavaScript

open Lexeme Pattern

/-- What an element does to the place where it stands. -/
inductive Element.Leads : Place → Element → Place → Prop
  | opens (d : Nat) : Leads (.code d) .opens (.text d)
  | closes (d : Nat) : Leads (.text d) .closes (.code d)
  | enters (d : Nat) : Leads (.text d) .enters (.code (d + 1))
  | leaves (d : Nat) : Leads (.code (d + 1)) .leaves (.text d)
  | literal (d : Nat) (c : CharOf isLiteral) : Leads (.text d) (.literal c) (.text d)
  | letter (d : Nat) (c : CharOf isLetter) : Leads (.code d) (.letter c) (.code d)
  | blank (d : Nat) (c : CharOf Text.isBlank) : Leads (.code d) (.blank c) (.code d)

/-- Elements that lead from a place to another one. -/
inductive Leads : Place → List Element → Place → Prop
  | refl (p : Place) : Leads p [] p
  | step {p p' q : Place} {e : Element} {es : List Element} (first : Element.Leads p e p')
      (rest : Leads p' es q) : Leads p (e :: es) q

section Grammar

variable {p q : Place} {es fs : List Element}

private theorem Leads.chars {α : Type} {make : α → Element}
    (hstay : ∀ a, Element.Leads p (make a) p)
    (h : Leads p es q) (chars : List α) : Leads p (chars.map make ++ es) q := by
  induction chars with
  | nil => exact h
  | cons a chars ih => exact .step (hstay a) ih

mutual

private theorem Body.leads {d : Nat} {es : List Element} {q : Place} (b : Body)
    (h : Leads (.text d) es q) : Leads (.text d) (b.elements ++ es) q := by
  match b with
  | .done => exact h
  | .literal chars more =>
    rw [Body.elements, List.append_assoc]
    exact (more.leads h).chars (.literal d) chars
  | .placeholder code more =>
    have hbehind : Leads (.code (d + 1)) (.leaves :: (more.elements ++ es)) q :=
      .step (.leaves d) (more.leads h)
    rw [Body.elements, List.cons_append, List.append_assoc]
    exact .step (.enters d) (code.leads hbehind)

private theorem Code.leads {d : Nat} {es : List Element} {q : Place} (c : Code)
    (h : Leads (.code d) es q) : Leads (.code d) (c.elements ++ es) q := by
  match c with
  | .done => exact h
  | .word letters more =>
    rw [Code.elements, List.append_assoc]
    exact (more.leads h).chars (.letter d) letters
  | .blanks chars more =>
    rw [Code.elements, List.append_assoc]
    exact (more.leads h).chars (.blank d) chars
  | .template body more =>
    have hbehind : Leads (.text d) (.closes :: (more.elements ++ es)) q :=
      .step (.closes d) (more.leads h)
    rw [Code.elements, List.cons_append, List.append_assoc]
    exact .step (.opens d) (body.leads hbehind)

end

private theorem Template.leads (t : Template) : Leads (.code 0) t.elements (.code 0) :=
  .step (.opens 0) (t.body.leads (.step (.closes 0) (.refl _)))

private theorem Leads.split (h : Leads p (es ++ fs) q) :
    ∃ mid, Leads p es mid ∧ Leads mid fs q := by
  induction es generalizing p with
  | nil => exact ⟨p, .refl p, h⟩
  | cons e es ih =>
    cases h with
    | step first rest =>
      obtain ⟨mid, hfront, hback⟩ := ih rest
      exact ⟨mid, .step first hfront, hback⟩

private theorem Element.Leads.depth {e : Element} (h : Element.Leads p e q) :
    e.depthBehind p.depth = q.depth := by
  cases h <;> rfl

private theorem Leads.depth (h : Leads p es q) :
    es.foldl Element.depthBehind p.depth = q.depth := by
  induction h with
  | refl p => rfl
  | step first rest ih => rw [List.foldl_cons, first.depth, ih]

end Grammar

private theorem textOf_append (es fs : List Element) : textOf (es ++ fs) = textOf es ++ textOf fs :=
  List.flatMap_append

private theorem textOf_single (e : Element) : textOf [e] = e.text := List.append_nil e.text

/-- The elements of a class are characters that stay at a place. What else may stand there starts
with no character with which they could go on. -/
structure RunsAt (p : Place) (f : Element → Bool) (char goesOn : Char → Bool) : Prop where
  stays : ∀ {e p'}, f e = true → Element.Leads p e p' → p' = p
  spells : ∀ {e}, f e = true → ∃ c, e.text = [c] ∧ char c = true
  stops : ∀ {e p'}, f e = false → Element.Leads p e p' →
    ∃ c cs, e.text = c :: cs ∧ goesOn c = false

namespace RunsAt

variable {p q : Place} {f : Element → Bool} {char goesOn : Char → Bool} {es : List Element}

private theorem leads (h : RunsAt p f char goesOn) (hes : Leads p es q) :
    Leads p (es.dropWhile f) q := by
  induction es with
  | nil => exact hes
  | cons e es ih =>
    by_cases he : f e = true
    · rw [List.dropWhile_cons_of_pos he]
      cases hes with
      | step first rest =>
        obtain rfl := h.stays he first
        exact ih rest
    · rwa [List.dropWhile_cons_of_neg he]

private theorem text_takeWhile (h : RunsAt p f char goesOn) (es : List Element) :
    ∀ c ∈ textOf (es.takeWhile f), char c = true := by
  intro c hc
  obtain ⟨e, he, hc⟩ := List.mem_flatMap.mp hc
  obtain ⟨d, htext, hd⟩ := h.spells (List.all_eq_true.mp List.all_takeWhile e he)
  rw [htext, List.mem_singleton] at hc
  rwa [hc]

private theorem stops_dropWhile (h : RunsAt p f char goesOn) (hes : Leads p es q) :
    (textOf (es.dropWhile f)).Stops goesOn := by
  have hrest := h.leads hes
  cases hdrop : es.dropWhile f with
  | nil => exact Text.stops_nil goesOn
  | cons e rest =>
    have he : f e = false := by
      have hhead := List.head?_dropWhile_not f es
      rw [hdrop] at hhead
      simpa using hhead
    rw [hdrop] at hrest
    cases hrest with
    | step first more =>
      obtain ⟨c, cs, htext, hc⟩ := h.stops he first
      rw [textOf, List.flatMap_cons, htext]
      exact Text.stops_cons.mpr hc

end RunsAt

/-- A character of a literal text that is taken in runs. -/
def Element.isStringChar : Element → Bool
  | .literal c => JavaScript.isStringChar c.val
  | _ => false

private theorem runsAt_text (d : Nat) :
    RunsAt (.text d) Element.isStringChar JavaScript.isStringChar JavaScript.isStringChar := by
  constructor
  · intro e p' he hmove
    cases hmove <;> first | rfl | contradiction
  · intro e he
    cases e with
    | literal c => exact ⟨c.val, rfl, he⟩
    | _ => contradiction
  · intro e p' he hmove
    cases hmove with
    | closes => exact ⟨_, _, rfl, rfl⟩
    | enters => exact ⟨_, _, rfl, rfl⟩
    | literal d c => exact ⟨c.val, [], rfl, he⟩

def Element.isWord (e : Element) : Bool := e.part == .word

private theorem runsAt_word (d : Nat) : RunsAt (.code d) Element.isWord isLetter isWordChar := by
  constructor
  · intro e p' he hmove
    cases hmove <;> first | rfl | contradiction
  · intro e he
    cases e with
    | letter c => exact ⟨c.val, rfl, c.property⟩
    | _ => contradiction
  · intro e p' he hmove
    cases hmove with
    | opens => exact ⟨_, _, rfl, rfl⟩
    | leaves => exact ⟨_, _, rfl, rfl⟩
    | letter d c => contradiction
    | blank d c =>
      refine ⟨c.val, [], rfl, ?_⟩
      cases hc : isWordChar c.val with
      | false => rfl
      | true => exact absurd c.property (by simp [isBlank_of_isWordChar hc])

def Element.isBlank (e : Element) : Bool := e.part == .blank

private theorem runsAt_blank (d : Nat) :
    RunsAt (.code d) Element.isBlank Text.isBlank Text.isBlank := by
  constructor
  · intro e p' he hmove
    cases hmove <;> first | rfl | contradiction
  · intro e he
    cases e with
    | blank c => exact ⟨c.val, rfl, c.property⟩
    | _ => contradiction
  · intro e p' he hmove
    cases hmove with
    | opens => exact ⟨_, _, rfl, rfl⟩
    | leaves => exact ⟨_, _, rfl, rfl⟩
    | letter d c =>
      have hword := isWordChar_of_isWordStart (isWordStart_of_isLetter c.property)
      exact ⟨c.val, [], rfl, isBlank_of_isWordChar hword⟩
    | blank d c => contradiction

private theorem Leads.stops_parenthesis {d : Nat} {es : List Element} {q : Place}
    (h : Leads (.code d) es q) : (textOf es).Stops (· == '(') := by
  cases h with
  | refl => exact Text.stops_nil _
  | step first more =>
    cases first with
    | opens => exact Text.stops_cons.mpr rfl
    | leaves => exact Text.stops_cons.mpr rfl
    | letter d c =>
      apply Text.stops_cons.mpr
      rw [beq_eq_false_iff_ne]
      intro hc
      exact absurd (hc ▸ c.property) (by decide)
    | blank d c =>
      apply Text.stops_cons.mpr
      rw [beq_eq_false_iff_ne]
      intro hc
      exact absurd (hc ▸ c.property) (by decide)

private theorem Leads.not_call {d : Nat} {es : List Element} {q : Place}
    (h : Leads (.code d) es q) : seq optionalBlanks (char '(') (textOf es) = none := by
  have hruns := runsAt_blank d
  have hblanks : optionalBlanks.Takes (textOf (es.takeWhile Element.isBlank))
      (textOf (es.dropWhile Element.isBlank)) :=
    takes_many (hruns.text_takeWhile es) (hruns.stops_dropWhile h)
  have hnone := hblanks.seq_eq_none (one_eq_none (hruns.leads h).stops_parenthesis)
  rwa [← textOf_append, List.takeWhile_append_dropWhile] at hnone

/-- A first step takes a piece of the elements as one token. -/
def HasPiece (p q : Place) (last : Text) (es : List Element) : Prop :=
  ∃ piece rest part kind p', es = piece ++ rest ∧ piece ≠ [] ∧ (∀ e ∈ piece, e.part = part) ∧
    kind ∈ part.kinds ∧ (part = .word → ∀ e ∈ rest.head?, e.part ≠ .word) ∧ Leads p' rest q ∧
    language.Advances last p.state (textOf piece) [⟨kind, textOf piece⟩] (textOf piece) p'.state
      (textOf rest)

section Pieces

variable {p p' q : Place} {d : Nat} {e : Element} {es : List Element} {last : Text}

private theorem hasPiece_mark (he : e.part = .template) (hes : Leads p' es q)
    (h : language.Advances last p.state e.text [⟨.string, e.text⟩] e.text p'.state (textOf es)) :
    HasPiece p q last (e :: es) := by
  refine ⟨[e], es, .template, .string, p', rfl, by simp, ?_, by decide, nofun, hes, ?_⟩
  · intro f hf
    rw [List.mem_singleton.mp hf, he]
  · rwa [textOf_single]

private theorem hasPiece_run {f : Element → Bool} {char goesOn : Char → Bool} {part : Part}
    (hruns : RunsAt p f char goesOn) (hpart : ∀ {e}, f e = true → e.part = part)
    (hwhole : ∀ {e}, f e = false → part = .word → e.part ≠ .word) (he : f e = true)
    (hes : Leads p (e :: es) q)
    (h : ∀ {t rest}, t ≠ [] → (∀ c ∈ t, char c = true) → Leads p rest q →
      (textOf rest).Stops goesOn → ∃ kind ∈ part.kinds,
        language.Advances last p.state t [⟨kind, t⟩] t p.state (textOf rest)) :
    HasPiece p q last (e :: es) := by
  let piece := (e :: es).takeWhile f
  let rest := (e :: es).dropWhile f
  have hpiece : piece = e :: es.takeWhile f := List.takeWhile_cons_of_pos he
  have hne : textOf piece ≠ [] := by
    obtain ⟨c, htext, -⟩ := hruns.spells he
    rw [hpiece, textOf, List.flatMap_cons, htext]
    simp
  obtain ⟨kind, hkind, hadvance⟩ :=
    h hne (hruns.text_takeWhile _) (hruns.leads hes) (hruns.stops_dropWhile hes)
  refine ⟨piece, rest, part, kind, p, List.takeWhile_append_dropWhile.symm, by simp [hpiece], ?_,
    hkind, ?_, hruns.leads hes, hadvance⟩
  · intro f hf
    exact hpart (List.all_eq_true.mp List.all_takeWhile f hf)
  · intro hword a ha
    have hstop := List.head?_dropWhile_not f (e :: es)
    rw [Option.mem_def.mp ha] at hstop
    exact hwhole (by simpa using hstop) hword

private theorem hasPiece_text (hes : Leads (.text d) (e :: es) q) (last : Text) :
    HasPiece (.text d) q last (e :: es) := by
  cases hes with
  | step first rest =>
    cases first with
    | closes => exact hasPiece_mark rfl rest (advances_closes d last _)
    | enters => exact hasPiece_mark rfl rest (advances_enters d last _)
    | literal d c =>
      cases hrun : JavaScript.isStringChar c.val with
      | true =>
        have hpart : ∀ {e : Element}, e.isStringChar = true → e.part = .template := by
          intro e he
          cases e <;> first | rfl | contradiction
        refine hasPiece_run (runsAt_text d) hpart nofun hrun (.step (.literal d c) rest) ?_
        intro t rest hne ht _ hrest
        exact ⟨.string, by decide, advances_run d hne ht hrest last⟩
      | false =>
        have hquote : isQuote c.val = true := by
          have hliteral := c.property
          simp only [isLiteral, Bool.not_eq_true', Bool.or_eq_false_iff] at hliteral
          simpa [JavaScript.isStringChar, hliteral] using hrun
        exact hasPiece_mark rfl rest (advances_quote d hquote last _)

private theorem hasPiece_code (hes : Leads (.code d) (e :: es) q) (last : Text) :
    HasPiece (.code d) q last (e :: es) := by
  cases hes with
  | step first rest =>
    cases first with
    | opens => exact hasPiece_mark rfl rest (advances_opens d last _)
    | leaves => exact hasPiece_mark rfl rest (advances_leaves _ last _)
    | letter d c =>
      refine hasPiece_run (runsAt_word d) beq_iff_eq.mp (fun he _ => beq_eq_false_iff_ne.mp he) rfl
        (.step (.letter d c) rest) ?_
      intro t rest hne ht hleads hrest
      exact advances_word d hne ht hrest hleads.not_call last
    | blank d c =>
      refine hasPiece_run (runsAt_blank d) beq_iff_eq.mp nofun rfl (.step (.blank d c) rest) ?_
      intro t rest hne ht _ hrest
      exact ⟨.whitespace, by decide, advances_blanks d hne ht hrest last⟩

private theorem hasPiece (hne : es ≠ []) (hes : Leads p es q) (last : Text) :
    HasPiece p q last es := by
  obtain ⟨e, es, rfl⟩ := List.exists_cons_of_ne_nil hne
  cases p with
  | code d => exact hasPiece_code hes last
  | text d => exact hasPiece_text hes last

end Pieces

section Lines

variable {p q : Place} {es : List Element}

/-- Elements up to the end of a line. -/
theorem elements_advance (hes : Leads p es q) (last : Text) : ∃ tokens last',
    ReadElements es tokens ∧
      language.Advances last p.state (textOf es) tokens last' q.state [] := by
  generalize hn : es.length = n
  induction n using Nat.strongRecOn generalizing p es last with
  | ind n ih =>
    by_cases hne : es = []
    · subst hne
      cases hes
      exact ⟨[], last, .nil, .refl language last _ []⟩
    · obtain ⟨piece, rest, part, kind, p', rfl, hpiece, hpart, hkind, hwhole, hrest, hfirst⟩ :=
        hasPiece hne hes last
      have hlength : rest.length < n := by
        have hpos : 0 < piece.length := List.length_pos_iff.mpr hpiece
        rw [List.length_append] at hn
        omega
      obtain ⟨tokens, last', hread, hmore⟩ := ih rest.length hlength hrest (textOf piece) rfl
      refine ⟨_, last', .piece hpiece hpart hkind hwhole hread, ?_⟩
      rw [← List.append_nil (textOf rest)] at hfirst
      rw [textOf_append]
      exact hfirst.trans hmore

private theorem tokenizeLine_read (hes : Leads p es q) :
    Row.ReadAs ⟨es, q.depth⟩ (language.tokenizeLine (textOf es) p.state) ∧
      (language.tokenizeLine (textOf es) p.state).outbound = q.state := by
  obtain ⟨tokens, last, hread, hline⟩ := elements_advance hes []
  rw [Language.tokenizeLine, p.beginLine_state, hline.finish, q.endLine_state]
  exact ⟨⟨hread, q.placeholderDepth_state⟩, rfl⟩

private theorem rows_of_plain {d : Nat} (h : ∀ e ∈ es, e.isLineFeed = false) :
    rows d es = [⟨es, es.foldl Element.depthBehind d⟩] := by
  induction es generalizing d with
  | nil => rfl
  | cons e es ih =>
    have he : ¬ e.isLineFeed = true := by simp [h e List.mem_cons_self]
    rw [rows, if_neg he, ih fun f hf => h f (List.mem_cons_of_mem e hf)]
    rfl

private theorem rows_append_lineFeed {d : Nat} {e : Element} {back : List Element}
    (h : ∀ e ∈ es, e.isLineFeed = false) (he : e.isLineFeed = true) :
    rows d (es ++ e :: back) = ⟨es, es.foldl Element.depthBehind d⟩ ::
      rows (e.depthBehind (es.foldl Element.depthBehind d)) back := by
  induction es generalizing d with
  | nil => rw [List.nil_append, rows, if_pos he]; rfl
  | cons f es ih =>
    have hf : ¬ f.isLineFeed = true := by simp [h f List.mem_cons_self]
    rw [List.cons_append, rows, if_neg hf, ih fun a ha => h a (List.mem_cons_of_mem f ha)]
    rfl

private theorem notMem_textOf (h : ∀ e ∈ es, e.isLineFeed = false) : '\n' ∉ textOf es := by
  intro hmem
  obtain ⟨e, he, hfeed⟩ := List.mem_flatMap.mp hmem
  have hline := h e he
  cases e with
  | literal c | letter c | blank c =>
    rw [Element.isLineFeed, Element.text, ← List.mem_singleton.mp hfeed] at hline
    exact absurd hline (by simp)
  | _ => exact absurd hfeed (by decide)

private theorem Element.Leads.stays {e : Element} (h : Element.Leads p e q)
    (he : e.isLineFeed = true) : q = p := by
  cases h <;> first | rfl | contradiction

/-- Lines in turn. -/
theorem rows_read (hes : Leads p es q) :
    List.Forall₂ Row.ReadAs (rows p.depth es)
      (language.tokenizer.thread p.state (Text.lines (textOf es))) ∧
    language.tokenizer.behind p.state (Text.lines (textOf es)) = q.state := by
  -- The lines behind the first line feed are those of the elements behind it.
  generalize hn : es.length = n
  induction n using Nat.strongRecOn generalizing p es with
  | ind n ih =>
    cases hfind : es.find? Element.isLineFeed with
    | none =>
      have hplain : ∀ e ∈ es, e.isLineFeed = false := by simpa using hfind
      obtain ⟨hread, hout⟩ := tokenizeLine_read hes
      rw [rows_of_plain hplain, hes.depth, Text.lines_of_notMem (notMem_textOf hplain)]
      exact ⟨.cons hread .nil, hout⟩
    | some e =>
      obtain ⟨he, front, back, rfl, hfront⟩ := List.find?_eq_some_iff_append.mp hfind
      have hplain : ∀ e ∈ front, e.isLineFeed = false := by simpa using hfront
      obtain ⟨mid, hline, hbehind⟩ := hes.split
      cases hbehind with
      | step first rest =>
        obtain rfl := first.stays he
        have hlength : back.length < n := by
          rw [← hn, List.length_append, List.length_cons]
          omega
        have htext : textOf (front ++ e :: back) = textOf front ++ '\n' :: textOf back := by
          rw [textOf_append, textOf, textOf, List.flatMap_cons, beq_iff_eq.mp he]
          rfl
        obtain ⟨hread, hout⟩ := tokenizeLine_read hline
        obtain ⟨hreads, hlast⟩ := ih back.length hlength rest rfl
        rw [rows_append_lineFeed hplain he, hline.depth, first.depth, htext,
          Text.lines_append_feed (notMem_textOf hplain)]
        rw [← hout] at hreads hlast
        exact ⟨.cons hread hreads, hlast⟩

end Lines

/-- However deep a template nests and wherever it is broken into lines, the literal texts and the
marks of templates are of strings, blanks of code are blanks, each word of code on a line is one
token, behind each line the state knows how many placeholders are open, and the last line leaves
nothing behind. -/
theorem templates_read (t : Template) :
    List.Forall₂ Row.ReadAs (rows 0 t.elements)
      (language.tokenizer.document (Text.lines t.text)) ∧
    language.tokenizer.behind language.initial (Text.lines t.text) = language.initial :=
  rows_read t.leads

/-- A line that ends in a placeholder, in front of a template in it. -/
example :
    let inner : Body := .literal [⟨'c', rfl⟩] .done
    let code : Code := .word [⟨'b', rfl⟩] (.blanks [⟨'\n', rfl⟩] (.template inner .done))
    let t : Template := ⟨.literal [⟨'a', rfl⟩] (.placeholder code .done)⟩
    Text.lines t.text = ["\x60a$\x7bb".toList, "\x60c\x60\x7d\x60".toList] ∧
      (rows 0 t.elements).map Row.depth = [1, 0] := by decide

end Highlight.JavaScript
