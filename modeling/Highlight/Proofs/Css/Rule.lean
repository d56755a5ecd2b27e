import Highlight.Proofs.Css.Grammar
import Highlight.Proofs.Css.Strings
import Highlight.Proofs.Lexeme.Word
/-! # Steps inside a rule

Away from brackets, comments, strings, escapes, at-rules and colours a step in a rule reads a name,
a number, an operator or blanks, in this order, or leaves a mark as plain text. Names may start with
a hyphen, and a colon is taken together with a name directly behind it. None of these steps changes
the state.
-/
namespace Highlight.Css

open Html (Gap)
open Lexeme Pattern

def isNameStart (c : Char) : Bool := c.isAlpha || c == '-'

def isNameChar (c : Char) : Bool := c.isAlphanum || c == '-'

/-- The colons and the name of a pseudo-class or a pseudo-element. -/
def pseudo : Pattern := all [char ':', optional (char ':'), name]

/-- What makes a name that of a property. -/
def colonAhead : Pattern := seq optionalBlanks (char ':')

/-- The characters at which a rule may read something that no declaration here has. -/
def openers : List Char :=
  ['/', Text.backslash, Text.doubleQuote, Text.singleQuote, '@', '#'] ++ brackets

variable {s : Scanner} {c : Char} {cs last t r : Text}

section Characters

private theorem isNameStart_of_isAlpha (h : c.isAlpha = true) : isNameStart c = true := by
  simp [isNameStart, h]

theorem isNameChar_of_isAlpha (h : c.isAlpha = true) : isNameChar c = true := by
  simp [isNameChar, Char.isAlphanum, h]

theorem isNameChar_of_isDigit (h : c.isDigit = true) : isNameChar c = true := by
  simp [isNameChar, Char.isAlphanum, h]

theorem isNameStart_of_isDigit (h : c.isDigit = true) : isNameStart c = false := by
  have hword := isWordStart_of_isDigit h
  simp only [isWordStart, Bool.or_eq_false_iff] at hword
  have hne : c ≠ '-' := by
    rintro rfl
    contradiction
  simp [isNameStart, hword.1.1, hne]

theorem isNumberChar_of_isAlpha (h : c.isAlpha = true) : (c.isDigit || c == '.') = false := by
  have hdigit : c.isDigit = false := by
    rw [Bool.eq_false_iff]
    intro hdigit
    have hstart := isNameStart_of_isDigit hdigit
    rw [isNameStart_of_isAlpha h] at hstart
    contradiction
  have hne : c ≠ '.' := by
    rintro rfl
    contradiction
  simp [hdigit, hne]

theorem isBlank_of_isNameChar (h : isNameChar c = true) : Text.isBlank c = false := by
  rcases Bool.or_eq_true_iff.mp h with h | h
  · exact isBlank_of_isWordChar (by simp [isWordChar, h])
  · rw [beq_iff_eq.mp h]
    rfl

theorem not_opener_of_isNameChar (h : isNameChar c = true) : openers.contains c = false :=
  contains_eq_false (f := fun c => !isNameChar c) rfl (by rw [h]; rfl)

private theorem not_opener_of_isBlank (h : Text.isBlank c = true) : openers.contains c = false :=
  contains_eq_false (f := fun c => !Text.isBlank c) rfl (by rw [h]; rfl)

theorem isNameChar_of_isNameStart (h : isNameStart c = true) : isNameChar c = true := by
  rcases Bool.or_eq_true_iff.mp h with h | h
  · exact isNameChar_of_isAlpha h
  · simp [isNameChar, h]

theorem eq_false_of_isBlank {f : Char → Bool} (h : Text.isBlank c = true)
    (hf : f c = true → isNameChar c = true) : f c = false := by
  cases hc : f c with
  | false => rfl
  | true =>
    rw [isBlank_of_isNameChar (hf hc)] at h
    contradiction

theorem Word.start (w : Word) :
    ∃ c cs, w.text = c :: cs ∧ isNameStart c = true ∧ ∀ d ∈ cs, isNameChar d = true := by
  obtain ⟨c, cs, htext⟩ := List.exists_cons_of_ne_nil w.named
  have hletters := w.letters
  rw [htext] at hletters
  refine ⟨c, cs, htext, isNameStart_of_isAlpha (hletters c List.mem_cons_self), ?_⟩
  intro d hd
  exact isNameChar_of_isAlpha (hletters d (List.mem_cons_of_mem c hd))

end Characters

private theorem name_eq_none (h : isNameStart c = false) (cs : Text) : name (c :: cs) = none :=
  seq_eq_none (one_eq_none (Text.stops_cons.mpr h))

theorem pseudo_eq_none (h : r.Stops fun c => isNameStart c || c == ':') :
    pseudo (':' :: r) = none := by
  have hname : r.Stops isNameStart := h.mono fun c hc => (Bool.or_eq_false_iff.mp hc).1
  have hcolon : r.Stops (· == ':') := h.mono fun c hc => (Bool.or_eq_false_iff.mp hc).2
  have hmore : (optional (char ':')).Takes [] r := takes_optional_nil (one_eq_none hcolon)
  exact (takes_char ':' r).seq_eq_none
    (hmore.seq_eq_none (seq_eq_none (seq_eq_none (one_eq_none hname))))

private theorem property?_eq_none (h : name s.rest = none) (st : State) :
    property? s st = none := by
  simp [property?, Scanner.tokenBefore?, Scanner.acceptBefore?, h]

private theorem takes_name (hc : isNameStart c = true) (hcs : ∀ d ∈ cs, isNameChar d = true)
    (hr : r.Stops isNameChar) : name.Takes (c :: cs) r := by
  have hone : (one isNameStart).Takes [c] (cs ++ r) := takes_one hc _
  exact hone.seq (takes_many hcs hr)

private theorem scan_rule (hs : s.rest = c :: r) (h : openers.contains c = false) :
    language.scan s State.rule =
      ((property? s State.rule <|> s.token? .identifier (seq (oneOf ['#', '.']) name)
          <|> s.token? .callIdentifier pseudo <|> s.token? .identifier name
          <|> quantity? s).map (·, State.rule)
        <|> comparator? s State.rule
        <|> (s.tokenAny? .operator operators <|> s.token? .whitespace blanks).map
          (·, State.rule)).getD (s, State.rule) := by
  obtain ⟨⟨hslash, hbackslash, hdouble, hsingle, hat, hhash⟩, hbracket⟩ :
      (c ≠ '/' ∧ c ≠ Text.backslash ∧ c ≠ Text.doubleQuote ∧ c ≠ Text.singleQuote ∧ c ≠ '@' ∧
        c ≠ '#') ∧ c ∉ brackets := by
    rw [← Bool.not_eq_true, List.contains_iff_mem, openers, List.mem_append, not_or] at h
    simpa using h
  have hcomment : s.tokenText? .comment blockOpen = none :=
    Scanner.tokenText?_eq_none hs hslash .comment _
  have hescape : escape s.rest = none := hs ▸ escape_eq_none fun hc => absurd hc hbackslash
  have hquote : quote s.rest = none :=
    hs ▸ one_eq_none (Text.stops_cons.mpr (by simp [isQuote, hdouble, hsingle]))
  have hatRule : seq (char '@') name s.rest = none :=
    hs ▸ seq_eq_none (one_eq_none (Text.stops_cons.mpr (by simpa using hat)))
  have hcolour : colour s.rest = none :=
    hs ▸ seq_eq_none (one_eq_none (Text.stops_cons.mpr (by simpa using hhash)))
  change scan s State.rule = _
  rw [scan, bracket?_eq_none hs hbracket, openComment?, hcomment, Scanner.token?_eq_none hescape]
  change (openString? s State.rule).getD (scanCode s State.rule) = _
  rw [openString?, Scanner.token?_eq_none hquote]
  change ((none : Option Scanner).map (·, State.rule) <|> code? s State.rule).getD _ = _
  rw [code?, atRule?, Scanner.token?_eq_none hatRule, colour?, Scanner.token?_eq_none hcolour]
  change (_ <|> (property? s State.rule).map (·, State.rule) <|> _).getD _ = _
  cases property? s State.rule <;> rfl

section Steps

/-- In a rule, a text in front of a rest is read as some tokens, and the rest as it is alone. -/
def Reads (text : Text) (tokens : List Token) (rest : Text) : Prop :=
  language.Advances [] State.rule text tokens [] State.rule rest

variable {text text' : Text} {tokens tokens' : List Token}

theorem Reads.nil (r : Text) : Reads [] [] r := .refl _ _ _ _

theorem Reads.append (h : Reads text tokens (text' ++ r)) (h' : Reads text' tokens' r) :
    Reads (text ++ text') (tokens ++ tokens') r := h.trans h'

theorem reads_of_advances (h : language.Advances [] State.rule text tokens last State.rule r) :
    Reads text tokens r := by
  rw [Language.Advances, lex_last last [] r] at h
  exact h

private theorem reads_token {kind : TokenKind} (hne : t ≠ [])
    (h : language.scan (.resume [] (t ++ r)) State.rule =
      (((Scanner.resume [] (t ++ r)).advance t.length).emit kind, State.rule)) :
    Reads t [⟨kind, t⟩] r := reads_of_advances (Language.advances_token hne h)

theorem reads_lead (hc : isNameStart c = true) (hcs : ∀ d ∈ cs, isNameChar d = true)
    (hr : r.Stops isNameChar) (hcolon : colonAhead r = none) :
    Reads (c :: cs) [⟨.identifier, c :: cs⟩] r := by
  have hname : name.Takes (c :: cs) r := takes_name hc hcs hr
  have hproperty : property? (.resume [] (c :: cs ++ r)) State.rule = none :=
    Scanner.tokenBefore?_of_takes rfl hname hcolon .callIdentifier
  have hselector : seq (oneOf ['#', '.']) name (c :: cs ++ r) = none :=
    seq_eq_none (one_eq_none (Text.stops_cons.mpr
      (contains_eq_false (f := fun c => !isNameStart c) rfl (by rw [hc]; rfl))))
  have hpseudo : pseudo (c :: cs ++ r) = none := by
    have hne : c ≠ ':' := by
      rintro rfl
      contradiction
    exact seq_eq_none (one_eq_none (Text.stops_cons.mpr (by simpa using hne)))
  apply reads_token (by simp)
  rw [scan_rule rfl (not_opener_of_isNameChar (isNameChar_of_isNameStart hc)), hproperty,
    Scanner.token?_eq_none hselector, Scanner.token?_eq_none hpseudo,
    Scanner.token?_of_takes rfl hname]
  rfl

theorem reads_property (w : Word) (gap : Gap) (r : Text) :
    Reads w.text [⟨.callIdentifier, w.text⟩] (gap.text ++ ':' :: r) := by
  obtain ⟨c, cs, htext, hc, hcs⟩ := w.start
  have hstops : Text.Stops isNameChar (gap.text ++ ':' :: r) := by
    cases hgap : gap.text with
    | nil => exact Text.stops_cons.mpr rfl
    | cons d ds =>
      have hd : Text.isBlank d = true := gap.blank d (hgap ▸ List.mem_cons_self)
      exact Text.stops_cons.mpr (eq_false_of_isBlank hd id)
  have hname : name.Takes w.text (gap.text ++ ':' :: r) := by
    rw [htext]
    exact takes_name hc hcs hstops
  have hahead : colonAhead.Takes (gap.text ++ [':']) r := by
    have hblanks : optionalBlanks.Takes gap.text ([':'] ++ r) :=
      takes_many gap.blank (Text.stops_cons.mpr rfl)
    exact hblanks.seq (takes_char ':' r)
  have hassoc : gap.text ++ ':' :: r = gap.text ++ [':'] ++ r := by simp
  rw [hassoc] at hname ⊢
  have hproperty : property? (.resume [] (w.text ++ (gap.text ++ [':'] ++ r))) State.rule =
      some _ := Scanner.tokenBefore?_of_takes_ahead rfl hname hahead .callIdentifier
  have hopener : openers.contains c = false :=
    not_opener_of_isNameChar (isNameChar_of_isNameStart hc)
  have hs : (Scanner.resume [] (w.text ++ (gap.text ++ [':'] ++ r))).rest =
      c :: (cs ++ (gap.text ++ [':'] ++ r)) := by
    rw [htext]
    rfl
  apply reads_token w.named
  rw [scan_rule hs hopener, hproperty]
  rfl

theorem reads_pseudo (hc : isNameStart c = true) (hcs : ∀ d ∈ cs, isNameChar d = true)
    (hr : r.Stops isNameChar) :
    Reads (':' :: c :: cs) [⟨.callIdentifier, ':' :: c :: cs⟩] r := by
  have hcolon : Text.Stops (· == ':') (c :: cs ++ r) := by
    have hne : c ≠ ':' := by
      rintro rfl
      contradiction
    exact Text.stops_cons.mpr (by simpa using hne)
  have hpseudo : pseudo.Takes (':' :: c :: cs) r := by
    have hname : (all [name]).Takes (c :: cs ++ []) r :=
      (takes_name hc hcs hr).seq (takes_all_nil r)
    rw [List.append_nil] at hname
    exact (takes_char ':' _).seq ((takes_optional_nil (one_eq_none hcolon)).seq hname)
  have hproperty : property? (.resume [] (':' :: c :: cs ++ r)) State.rule = none :=
    property?_eq_none (name_eq_none rfl _) State.rule
  apply reads_token (by simp)
  rw [scan_rule (c := ':') rfl rfl, hproperty, Scanner.token?_eq_none (seq_eq_none rfl),
    Scanner.token?_of_takes rfl hpseudo]
  rfl

theorem scan_of_not_name (hs : s.rest = c :: r) (h : openers.contains c = false)
    (hname : isNameStart c = false) (hselector : c = '.' → r.Stops isNameStart)
    (hpseudo : c = ':' → pseudo (c :: r) = none) :
    language.scan s State.rule =
      ((quantity? s).map (·, State.rule) <|> comparator? s State.rule
        <|> (s.tokenAny? .operator operators <|> s.token? .whitespace blanks).map
          (·, State.rule)).getD (s, State.rule) := by
  have hnone : name s.rest = none := hs ▸ name_eq_none hname r
  have hselector : seq (oneOf ['#', '.']) name s.rest = none := by
    rw [hs]
    by_cases hc : c = '.'
    · subst hc
      exact (takes_one rfl r).seq_eq_none (seq_eq_none (one_eq_none (hselector rfl)))
    · have hhash : c ≠ '#' := by
        rintro rfl
        contradiction
      exact seq_eq_none (one_eq_none (Text.stops_cons.mpr (by simp [hc, hhash])))
  have hpseudo : pseudo s.rest = none := by
    by_cases hc : c = ':'
    · rw [hs, hpseudo hc]
    · rw [hs]
      exact seq_eq_none (one_eq_none (Text.stops_cons.mpr (by simpa using hc)))
  rw [scan_rule hs h, property?_eq_none hnone, Scanner.token?_eq_none hselector,
    Scanner.token?_eq_none hpseudo, Scanner.token?_eq_none hnone]
  rfl

private theorem number_eq_none (hdigit : c.isDigit = false) (hpoint : c ≠ '.') (cs : Text) :
    number (c :: cs) = none := by
  have hmany : (many Char.isDigit).Takes [] (c :: cs) :=
    takes_many (by simp) (Text.stops_cons.mpr hdigit)
  have hfraction : all [many Char.isDigit, char '.', many1 Char.isDigit] (c :: cs) = none :=
    hmany.seq_eq_none (seq_eq_none (one_eq_none (Text.stops_cons.mpr (by simpa using hpoint))))
  have hwhole : many1 Char.isDigit (c :: cs) = none := many1_eq_none (Text.stops_cons.mpr hdigit)
  rw [number, alt, hfraction, hwhole]
  rfl

private theorem scan_of_not_number (hs : s.rest = c :: r) (h : openers.contains c = false)
    (hname : isNameStart c = false) (hdigit : c.isDigit = false) (hpoint : c ≠ '.')
    (hpseudo : c = ':' → pseudo (c :: r) = none) :
    language.scan s State.rule =
      (comparator? s State.rule
        <|> (s.tokenAny? .operator operators <|> s.token? .whitespace blanks).map
          (·, State.rule)).getD (s, State.rule) := by
  have hnumber : number s.rest = none := hs ▸ number_eq_none hdigit hpoint r
  rw [scan_of_not_name hs h hname (fun hc => absurd hc hpoint) hpseudo, quantity?,
    Scanner.token?_eq_none hnumber]
  rfl

private theorem scan_of_not_operator {f : Char → Bool} (hs : s.rest = c :: r)
    (h : openers.contains c = false) (hname : isNameStart c = false) (hdigit : c.isDigit = false)
    (hpoint : c ≠ '.') (hpseudo : c = ':' → pseudo (c :: r) = none)
    (hstart : (comparators ++ operators).all (·.head?.any f) = true) (hc : f c = false) :
    language.scan s State.rule =
      ((s.token? .whitespace blanks).map (·, State.rule)).getD (s, State.rule) := by
  rw [List.all_append, Bool.and_eq_true] at hstart
  have hcomparator : s.tokenAny? .operator comparators = none :=
    Scanner.tokenAny?_eq_none_of_start hstart.1 hs hc .operator
  have hoperator : s.tokenAny? .operator operators = none :=
    Scanner.tokenAny?_eq_none_of_start hstart.2 hs hc .operator
  rw [scan_of_not_number hs h hname hdigit hpoint hpseudo, comparator?, hcomparator, hoperator]
  rfl

theorem reads_mark (hc : c ∈ [':', ';', '%']) (hpseudo : c = ':' → pseudo (c :: r) = none) :
    Reads [c] [⟨.text, [c]⟩] r := by
  have hmark : openers.contains c = false ∧ isNameStart c = false ∧ c.isDigit = false ∧ c ≠ '.' ∧
      Text.isBlank c = false ∧ (comparators ++ operators).all (·.head?.any (· != c)) = true := by
    simp only [List.mem_cons, List.not_mem_nil, or_false] at hc
    rcases hc with rfl | rfl | rfl <;> decide
  obtain ⟨hopener, hname, hdigit, hpoint, hblank, hstart⟩ := hmark
  have hblanks : blanks (c :: r) = none := many1_eq_none (Text.stops_cons.mpr hblank)
  apply reads_of_advances
  apply Language.advances_stay
  rw [scan_of_not_operator rfl hopener hname hdigit hpoint hpseudo hstart (bne_self_eq_false c),
    Scanner.token?_eq_none hblanks]
  rfl

theorem reads_gap (gap : Gap) (hr : r.Stops Text.isBlank) : Reads gap.text gap.tokens r := by
  cases hgap : gap.text with
  | nil =>
    rw [Gap.tokens, hgap]
    exact .nil r
  | cons c cs =>
    have hall := gap.blank
    rw [hgap] at hall
    have hblank : Text.isBlank c = true := hall c List.mem_cons_self
    have htake : blanks.Takes (c :: cs) r := takes_many1 (by simp) hall hr
    have hne : c ≠ '.' ∧ c ≠ ':' := by
      constructor
      all_goals
        rintro rfl
        contradiction
    rw [Gap.tokens, hgap]
    apply reads_token (by simp)
    rw [scan_of_not_operator (f := fun c => !Text.isBlank c) rfl (not_opener_of_isBlank hblank)
      (eq_false_of_isBlank hblank isNameChar_of_isNameStart)
      (eq_false_of_isBlank hblank isNameChar_of_isDigit) hne.1 (fun hc => absurd hc hne.2)
      (by decide) (by rw [hblank]; rfl), Scanner.token?_of_takes rfl htake]
    rfl

end Steps

end Highlight.Css
