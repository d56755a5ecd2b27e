import Highlight.Proofs.JavaScript.Grammar
import Highlight.Proofs.JavaScript.Quoted
import Highlight.Proofs.Lexeme.Comment
import Highlight.Proofs.Lexeme.Number
import Highlight.Proofs.Lexeme.Word
/-! # Steps in and around templates

Where nothing but templates is open, a step is either in code or in the text of a template. There it
reads a mark that leads from the one to the other, a piece of the text, or a word or blanks of the
code. The state tells where it is and how many placeholders are open.
-/
namespace Highlight.JavaScript

open Lexeme Pattern

/-- In code or in the text of a template, behind so many placeholders that are open. -/
inductive Place where
  | code (depth : Nat)
  | text (depth : Nat)

namespace Place

def depth : Place → Nat
  | .code d | .text d => d

def state : Place → State
  | .code d => { outer := List.replicate d .suspended }
  | .text d =>
    { current := ⟨some Text.backquote, true, false⟩, outer := List.replicate d .suspended }

theorem placeholderDepth_state (p : Place) : p.state.placeholderDepth = p.depth := by
  cases p <;> exact List.length_replicate

theorem beginLine_state (p : Place) : language.beginLine p.state = p.state := by
  cases p <;> rfl

theorem endLine_state (p : Place) : language.endLine p.state = p.state := by
  cases p <;> rfl

theorem scan_code (d : Nat) (s : Scanner) :
    language.scan s (code d).state = scanCode s (code d).state := rfl

private theorem scan_text (d : Nat) (s : Scanner) :
    language.scan s (text d).state = scanString Text.backquote s (text d).state := rfl

end Place

variable {s : Scanner} {d : Nat} {c : Char} {cs last t r : Text}

section Marks

private theorem closePlaceholder?_eq_none (hs : s.rest = c :: r) (h : c ≠ '}') (st : State) :
    closePlaceholder? s st = none := by
  rw [closePlaceholder?, Scanner.tokenChar?_eq_none hs h]
  split <;> rfl

theorem advances_opens (d : Nat) (last r : Text) :
    language.Advances last (Place.code d).state [Text.backquote] [⟨.string, [Text.backquote]⟩]
      [Text.backquote] (Place.text d).state r := by
  apply Language.advances_token (by simp)
  rw [Place.scan_code, scanCode, closePlaceholder?_eq_none (c := Text.backquote) rfl (by decide),
    openTemplate?, Scanner.tokenChar?_eq_some (r := r) rfl]
  rfl

theorem advances_closes (d : Nat) (last r : Text) :
    language.Advances last (Place.text d).state [Text.backquote] [⟨.string, [Text.backquote]⟩]
      [Text.backquote] (Place.code d).state r := by
  have hopen : (Scanner.resume last ([Text.backquote] ++ r)).tokenText? .string placeholderOpen =
      none := Scanner.tokenText?_eq_none rfl (by decide) .string _
  apply Language.advances_token (by simp)
  rw [Place.scan_text, scanString, escape?_eq_none rfl (by decide), openPlaceholder?, hopen,
    closeString?, Scanner.tokenChar?_eq_some (r := r) rfl]
  rfl

theorem advances_enters (d : Nat) (last r : Text) :
    language.Advances last (Place.text d).state placeholderOpen [⟨.string, placeholderOpen⟩]
      placeholderOpen (Place.code (d + 1)).state r := by
  have hescape : escape? (.resume last (placeholderOpen ++ r)) = none :=
    escape?_eq_none (c := '$') rfl (by decide)
  apply Language.advances_token (by decide)
  rw [Place.scan_text, scanString, hescape]
  rfl

theorem advances_leaves (d : Nat) (last r : Text) :
    language.Advances last (Place.code (d + 1)).state ['}'] [⟨.string, ['}']⟩] ['}']
      (Place.text d).state r := by
  apply Language.advances_token (by simp)
  rw [Place.scan_code, scanCode, closePlaceholder?, Scanner.tokenChar?_eq_some (r := r) rfl]
  rfl

end Marks

private theorem advances_text (d : Nat) (hc : isLiteral c = true)
    (hpiece : stringBody.Takes (c :: cs) r)
    (last : Text) : language.Advances last (Place.text d).state (c :: cs) [⟨.string, c :: cs⟩]
      (c :: cs) (Place.text d).state r := by
  obtain ⟨⟨hbackquote, hbackslash⟩, hdollar⟩ :
      (c ≠ Text.backquote ∧ c ≠ Text.backslash) ∧ c ≠ '$' := by simpa [isLiteral] using hc
  have hopen : (Scanner.resume last (c :: cs ++ r)).tokenText? .string placeholderOpen = none :=
    Scanner.tokenText?_eq_none rfl hdollar .string _
  apply Language.advances_token (by simp)
  rw [Place.scan_text, scanString, escape?_eq_none rfl hbackslash, openPlaceholder?, hopen,
    closeString?, Scanner.tokenChar?_eq_none rfl hbackquote, Scanner.accept_of_takes last hpiece]
  rfl

theorem advances_run (d : Nat) (hne : t ≠ []) (ht : ∀ c ∈ t, isStringChar c = true)
    (hr : r.Stops isStringChar) (last : Text) :
    language.Advances last (Place.text d).state t [⟨.string, t⟩] t (Place.text d).state r := by
  have htake : stringBody.Takes t r := (takes_many1 hne ht hr).alt_left _
  obtain ⟨c, cs, rfl⟩ := List.exists_cons_of_ne_nil hne
  have hc := ht c List.mem_cons_self
  have hliteral : isLiteral c = true := by
    simp only [isStringChar, Bool.not_eq_true', Bool.or_eq_false_iff] at hc
    simp [isLiteral, hc]
  exact advances_text d hliteral htake last

theorem advances_quote (d : Nat) (hc : isQuote c = true) (last r : Text) :
    language.Advances last (Place.text d).state [c] [⟨.string, [c]⟩] [c] (Place.text d).state
      r := by
  have hrun : many1 isStringChar (c :: r) = none :=
    many1_eq_none (Text.stops_cons.mpr (by simp [isStringChar, hc]))
  rcases isQuote_iff.mp hc with rfl | rfl
  all_goals exact advances_text d rfl ((takes_one rfl r).alt_right hrun) last

/-- The characters at which code has something other than words, numbers, operators and blanks. -/
def codeMarks : List Char := ['}', Text.backquote, Text.doubleQuote, Text.singleQuote, '/']

theorem scanCode_of_not_mark (hs : s.rest = c :: r) (h : codeMarks.contains c = false)
    (st : State) : scanCode s st = ((plain? s).map (·, st)).getD (s, st) := by
  obtain ⟨hclose, hbackquote, hdouble, hsingle, hslash⟩ :
      c ≠ '}' ∧ c ≠ Text.backquote ∧ c ≠ Text.doubleQuote ∧ c ≠ Text.singleQuote ∧ c ≠ '/' := by
    simpa [codeMarks] using h
  have hquote : quote s.rest = none := by
    rw [hs]
    exact one_eq_none (Text.stops_cons.mpr (by simp [isQuote, hdouble, hsingle]))
  have hopen : s.tokenText? .comment blockOpen = none :=
    Scanner.tokenText?_eq_none hs hslash .comment _
  rw [scanCode, closePlaceholder?_eq_none hs hclose, openTemplate?,
    Scanner.tokenChar?_eq_none hs hbackquote, openString?, Scanner.token?_eq_none hquote,
    openComment?, hopen]
  rfl

theorem advances_plain {kind : TokenKind} (d : Nat) (hc : codeMarks.contains c = false)
    (h : plain? (.resume last (c :: cs ++ r)) =
      some (((Scanner.resume last (c :: cs ++ r)).advance (c :: cs).length).emit kind)) :
    language.Advances last (Place.code d).state (c :: cs) [⟨kind, c :: cs⟩] (c :: cs)
      (Place.code d).state r := by
  apply Language.advances_token (by simp)
  rw [Place.scan_code, scanCode_of_not_mark rfl hc, h]
  rfl

theorem plain?_of_not_slash (hs : s.rest = c :: r) (h : c ≠ '/') :
    plain? s = (keyword? s
      <|> s.tokenBefore? .callIdentifier identifier (seq optionalBlanks (char '('))
      <|> s.token? .identifier identifier <|> s.token? .number number
      <|> s.tokenAny? .operator operators <|> s.token? .whitespace blanks) := by
  rw [plain?, Scanner.token?_eq_none (hs ▸ lineComment_eq_none h r)]
  rfl

theorem plain?_of_not_word (hs : s.rest = c :: r) (hslash : c ≠ '/')
    (hword : isWordStart c = false) :
    plain? s = (s.token? .number number <|> s.tokenAny? .operator operators
      <|> s.token? .whitespace blanks) := by
  have hidentifier : identifier s.rest = none := hs ▸ identifier_eq_none hword r
  have hkeyword : keyword? s = none := by
    simp [keyword?, Scanner.peek?, hidentifier]
  have hcall :
      s.tokenBefore? .callIdentifier identifier (seq optionalBlanks (char '(')) = none := by
    simp [Scanner.tokenBefore?, Scanner.acceptBefore?, hidentifier]
  rw [plain?_of_not_slash hs hslash, hkeyword, hcall, Scanner.token?_eq_none hidentifier]
  rfl

private theorem operators_start : operators.all (·.head?.any (!Text.isBlank ·)) = true := by decide

theorem advances_blanks (d : Nat) (hne : t ≠ []) (ht : ∀ c ∈ t, Text.isBlank c = true)
    (hr : r.Stops Text.isBlank) (last : Text) :
    language.Advances last (Place.code d).state t [⟨.whitespace, t⟩] t (Place.code d).state r := by
  have htake : blanks.Takes t r := takes_many1 hne ht hr
  obtain ⟨c, cs, rfl⟩ := List.exists_cons_of_ne_nil hne
  have hblank : Text.isBlank c = true := ht c List.mem_cons_self
  have houtside : ∀ {f : Char → Bool}, (f c = true → isWordChar c = true) → f c = false := by
    intro f hf
    cases hc : f c with
    | false => rfl
    | true =>
      rw [isBlank_of_isWordChar (hf hc)] at hblank
      contradiction
  have hmark : codeMarks.contains c = false :=
    contains_eq_false (f := fun c => !Text.isBlank c) rfl (by rw [hblank]; rfl)
  have hne : c ≠ '/' ∧ c ≠ '.' := by
    constructor
    all_goals
      rintro rfl
      contradiction
  have hs : (Scanner.resume last (c :: cs ++ r)).rest = c :: (cs ++ r) := rfl
  have hnumber : number (c :: (cs ++ r)) = none :=
    number_eq_none (houtside fun h => by simp [isWordChar, Char.isAlphanum, h]) hne.2
  have hoperator : (Scanner.resume last (c :: cs ++ r)).tokenAny? .operator operators = none :=
    Scanner.tokenAny?_eq_none_of_start operators_start rfl (by rw [hblank]; rfl) .operator
  apply advances_plain d hmark
  rw [plain?_of_not_word hs hne.1 (houtside isWordChar_of_isWordStart),
    Scanner.token?_eq_none hnumber, hoperator, Scanner.token?_of_takes rfl htake]
  rfl

private theorem wordKind?_mem {word : Text} {kind : TokenKind} (h : wordKind? word = some kind) :
    kind ∈ Part.kinds .word := by
  rcases wordKind?_eq_some h with ⟨rfl, -⟩ | ⟨rfl, -⟩ <;> decide

theorem isWordStart_of_isLetter (h : isLetter c = true) : isWordStart c = true := by
  simp only [isLetter, Bool.or_eq_true] at h
  simp only [isWordStart, Bool.or_eq_true]
  exact .inl h

theorem advances_word (d : Nat) (hne : t ≠ []) (ht : ∀ c ∈ t, isLetter c = true)
    (hr : r.Stops isWordChar) (hcall : seq optionalBlanks (char '(') r = none) (last : Text) :
    ∃ kind ∈ Part.kinds .word, language.Advances last (Place.code d).state t [⟨kind, t⟩] t
      (Place.code d).state r := by
  obtain ⟨c, cs, rfl⟩ := List.exists_cons_of_ne_nil hne
  have hstart : isWordStart c = true := isWordStart_of_isLetter (ht c List.mem_cons_self)
  have htake : identifier.Takes (c :: cs) r :=
    takes_identifier hstart (fun d hd => isWordChar_of_isWordStart
      (isWordStart_of_isLetter (ht d (List.mem_cons_of_mem c hd)))) hr
  have hmark : codeMarks.contains c = false :=
    contains_eq_false (f := fun c => !isWordStart c) rfl (by rw [hstart]; rfl)
  have hslash : c ≠ '/' := by
    rintro rfl
    contradiction
  let s := Scanner.resume last (c :: cs ++ r)
  have hs : s.rest = c :: cs ++ r := rfl
  have hkeyword : keyword? s = none ∨ ∃ kind ∈ Part.kinds .word,
      keyword? s = some ((s.advance (c :: cs).length).emit kind) := by
    rw [keyword?, Scanner.peek?_of_takes hs htake]
    split
    · exact .inl rfl
    · cases hkind : wordKind? (c :: cs) with
      | none => exact .inl (by simp [hkind])
      | some kind => exact .inr ⟨kind, wordKind?_mem hkind, by simp [hkind]⟩
  have hplain := plain?_of_not_slash hs hslash
  rw [Scanner.tokenBefore?_of_takes hs htake hcall, Scanner.token?_of_takes hs htake] at hplain
  rcases hkeyword with hnone | ⟨kind, hkind, hsome⟩
  · rw [hnone] at hplain
    exact ⟨.identifier, by decide, advances_plain d hmark hplain⟩
  · rw [hsome] at hplain
    exact ⟨kind, hkind, advances_plain d hmark hplain⟩

end Highlight.JavaScript
