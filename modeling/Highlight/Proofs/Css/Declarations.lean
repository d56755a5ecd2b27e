import Highlight.Proofs.Css.Rule
/-! # Reading declarations

Names are looked for before numbers and operators, and they may start with a hyphen: so the sign of
a number is never an operator, but starts a name. And a colon is taken with a name directly behind
it as a pseudo-class, also in a rule, where it stands in front of a value. Apart from these two a
line of declarations is read as its grammar says.
-/
namespace Highlight.Css

open Html (Gap)
open Lexeme Pattern

variable {c : Char} {cs r : Text}

section Values

/-- What follows a value: a semicolon, or blanks behind which there is no colon. -/
def Apart (r : Text) : Prop :=
  ∃ gap c cs, r = gap ++ c :: cs ∧ (∀ d ∈ gap, Text.isBlank d = true) ∧ Text.isBlank c = false ∧
    c ≠ ':' ∧ (gap = [] → c = ';')

private theorem Apart.stops {f : Char → Bool} (h : Apart r) (hsemicolon : f ';' = false)
    (hblank : ∀ d, Text.isBlank d = true → f d = false) : r.Stops f := by
  obtain ⟨gap, c, cs, rfl, hgap, -, -, hend⟩ := h
  cases gap with
  | nil => exact Text.stops_cons.mpr (hend rfl ▸ hsemicolon)
  | cons d gap => exact Text.stops_cons.mpr (hblank d (hgap d List.mem_cons_self))

private theorem colonAhead_eq_none {gap : Text} (hgap : ∀ d ∈ gap, Text.isBlank d = true)
    (hblank : Text.isBlank c = false) (hcolon : c ≠ ':') (cs : Text) :
    colonAhead (gap ++ c :: cs) = none := by
  have htake : optionalBlanks.Takes gap (c :: cs) := takes_many hgap (Text.stops_cons.mpr hblank)
  exact htake.seq_eq_none (one_eq_none (Text.stops_cons.mpr (by simpa using hcolon)))

private theorem Apart.colonAhead_eq_none (h : Apart r) : colonAhead r = none := by
  obtain ⟨gap, c, cs, rfl, hgap, hblank, hcolon, -⟩ := h
  exact Css.colonAhead_eq_none hgap hblank hcolon cs

private theorem Apart.stops_isNameChar (h : Apart r) : r.Stops isNameChar :=
  h.stops rfl fun _ hd => eq_false_of_isBlank hd id

private theorem Numeral.start (n : Numeral) :
    ∃ c cs, n.text = c :: cs ∧
      (c.isDigit = true ∨ c = '.' ∧ ∃ d ds, cs = d :: ds ∧ d.isDigit = true) := by
  cases n with
  | whole digits isDigits =>
    obtain ⟨d, ds, rfl, hd⟩ := isDigits.head
    exact ⟨d, ds, rfl, .inl hd⟩
  | point front behind frontDigits isDigits =>
    cases front with
    | nil => exact ⟨'.', behind, rfl, .inr ⟨rfl, isDigits.head⟩⟩
    | cons d ds => exact ⟨d, _, rfl, .inl (frontDigits d List.mem_cons_self)⟩

private theorem Numeral.takes_text (n : Numeral) (hr : r.Stops fun c => c.isDigit || c == '.') :
    number.Takes n.text r := by
  have hdigit : r.Stops Char.isDigit := hr.mono fun c hc => (Bool.or_eq_false_iff.mp hc).1
  have hpoint : r.Stops (· == '.') := hr.mono fun c hc => (Bool.or_eq_false_iff.mp hc).2
  cases n with
  | whole digits isDigits =>
    have hmany : (many Char.isDigit).Takes digits r := takes_many isDigits.isDigit hdigit
    exact (takes_digits isDigits hdigit).alt_right
      (hmany.seq_eq_none (seq_eq_none (one_eq_none hpoint)))
  | point front behind frontDigits isDigits =>
    have hmany : (many Char.isDigit).Takes front (['.'] ++ (behind ++ []) ++ r) :=
      takes_many frontDigits (Text.stops_cons.mpr rfl)
    have htake := hmany.seq ((takes_char '.' _).seq
      ((takes_digits isDigits hdigit).seq (takes_all_nil r)))
    rw [List.append_nil] at htake
    exact Takes.alt_left htake _

private theorem Measure.stops {f : Char → Bool} (m : Measure) (hr : r.Stops f)
    (hpercent : f '%' = false)
    (hletter : ∀ c, c.isAlpha = true → f c = false) : Text.Stops f (m.text ++ r) := by
  cases m with
  | bare => exact hr
  | letters w => exact Text.stops_append w.named (fun c hc => hletter c (w.letters c hc)) r
  | percent => exact Text.stops_cons.mpr hpercent

private theorem Measure.token?_eq (m : Measure) (hr : Apart r) (consumed last : Text)
    (tokens : List Token) :
    ∃ last', (((⟨consumed, m.text ++ r, last, tokens⟩ : Scanner).token? .identifier unit).getD
        ⟨consumed, m.text ++ r, last, tokens⟩) =
      ⟨consumed ++ m.text, r, last', tokens ++ m.tokens⟩ := by
  have hstops : r.Stops fun c => c.isAlpha || c == '%' := by
    refine hr.stops rfl fun d hd => ?_
    have halpha : d.isAlpha = false := eq_false_of_isBlank hd isNameChar_of_isAlpha
    have hne : d ≠ '%' := by
      rintro rfl
      contradiction
    simp [halpha, hne]
  cases m with
  | bare =>
    have hnone : unit (bare.text ++ r) = none := many1_eq_none hstops
    refine ⟨last, ?_⟩
    rw [Scanner.token?_eq_none hnone]
    simp [text, Measure.tokens]
  | letters w =>
    have htake : unit.Takes w.text r :=
      takes_many1 w.named (fun c hc => by simp [w.letters c hc]) hstops
    refine ⟨w.text, ?_⟩
    rw [Scanner.token?_of_takes rfl htake, text, Scanner.advance_emit _ _ _ w.named]
    rfl
  | percent =>
    have htake : unit.Takes ['%'] r := takes_many1 (by simp) (by simp) hstops
    refine ⟨['%'], ?_⟩
    rw [Scanner.token?_of_takes rfl htake, text, Scanner.advance_emit _ _ _ (by simp)]
    rfl

private theorem reads_quantity (n : Numeral) (m : Measure) (hr : Apart r) :
    Reads (n.text ++ m.text) (⟨.number, n.text⟩ :: m.tokens) r := by
  have hstops : Text.Stops (fun c => c.isDigit || c == '.') (m.text ++ r) := by
    refine m.stops (hr.stops rfl fun d hd => ?_) rfl fun d hd => ?_
    · have hdigit : d.isDigit = false := eq_false_of_isBlank hd isNameChar_of_isDigit
      have hne : d ≠ '.' := by
        rintro rfl
        contradiction
      simp [hdigit, hne]
    · exact isNumberChar_of_isAlpha hd
  have htake : number.Takes n.text (m.text ++ r) := n.takes_text hstops
  obtain ⟨c, cs, htext, hstart⟩ := n.start
  have hs : (Scanner.resume [] (n.text ++ (m.text ++ r))).rest = c :: (cs ++ (m.text ++ r)) := by
    rw [htext]
    rfl
  have hne : n.text ≠ [] := by simp [htext]
  have hopener : openers.contains c = false := by
    rcases hstart with hd | ⟨rfl, -⟩
    · exact not_opener_of_isNameChar (isNameChar_of_isDigit hd)
    · rfl
  have hname : isNameStart c = false := by
    rcases hstart with hd | ⟨rfl, -⟩
    · exact isNameStart_of_isDigit hd
    · rfl
  have hselector : c = '.' → Text.Stops isNameStart (cs ++ (m.text ++ r)) := by
    rintro rfl
    obtain ⟨-, d, ds, rfl, hd⟩ := hstart.resolve_left (by decide)
    exact Text.stops_cons.mpr (isNameStart_of_isDigit hd)
  have hcolon : c ≠ ':' := by
    rintro rfl
    rcases hstart with hd | ⟨hd, -⟩ <;> contradiction
  obtain ⟨last', hunit⟩ := m.token?_eq hr n.text n.text [⟨.number, n.text⟩]
  apply reads_of_advances
  apply Language.advances_step (n.text ++ m.text) (by simp [hne])
  rw [List.append_assoc, scan_of_not_name hs hopener hname hselector (fun hc => absurd hc hcolon),
    quantity?, Scanner.token?_of_takes rfl htake, Scanner.resume, Scanner.advance_emit _ _ _ hne]
  change ((Option.map _ _).map _ <|> _).getD _ = _
  rw [Option.map_some, List.nil_append, List.nil_append, hunit]
  rfl

private theorem Measure.spell_tokens (m : Measure) : Token.spell m.tokens = m.text := by
  cases m with
  | bare => rfl
  | letters w => exact List.append_nil w.text
  | percent => rfl

namespace Component

private theorem lead_append_tail (v : Component) : v.lead ++ Token.spell v.tail = v.text := by
  cases v with
  | word w => exact List.append_nil w.text
  | quantity q =>
    obtain ⟨negative, n, m⟩ := q
    cases negative with
    | false => simp [lead, tail, text, m.spell_tokens]
    | true =>
      cases n with
      | whole digits isDigits => cases m <;> simp [lead, tail, text, Numeral.text, Measure.text]
      | point front behind frontDigits isDigits =>
        simp [lead, tail, text, Numeral.text, m.spell_tokens]

private theorem exists_of_lead_eq_nil {v : Component} (h : v.lead = []) :
    ∃ n m, v = quantity ⟨false, n, m⟩ := by
  cases v with
  | word w => exact absurd h w.named
  | quantity q =>
    obtain ⟨negative, n, m⟩ := q
    cases negative with
    | false => exact ⟨n, m, rfl⟩
    | true => cases n <;> cases m <;> contradiction

private theorem lead_start {v : Component} (h : v.lead ≠ []) :
    ∃ c cs, v.lead = c :: cs ∧ isNameStart c = true ∧ ∀ d ∈ cs, isNameChar d = true := by
  cases v with
  | word w => exact w.start
  | quantity q =>
    obtain ⟨negative, n, m⟩ := q
    cases negative with
    | false => exact absurd rfl h
    | true =>
      cases n with
      | whole digits isDigits =>
        have hdigits : ∀ d ∈ digits, isNameChar d = true := fun d hd =>
          isNameChar_of_isDigit (isDigits.isDigit d hd)
        cases m with
        | bare => exact ⟨'-', digits, rfl, rfl, hdigits⟩
        | letters w =>
          refine ⟨'-', digits ++ w.text, rfl, rfl, List.forall_mem_append.mpr ⟨hdigits, ?_⟩⟩
          exact fun d hd => isNameChar_of_isAlpha (w.letters d hd)
        | percent => exact ⟨'-', digits, rfl, rfl, hdigits⟩
      | point front behind frontDigits isDigits =>
        exact ⟨'-', front, rfl, rfl, fun d hd => isNameChar_of_isDigit (frontDigits d hd)⟩

private theorem behind_lead {v : Component} (h : v.lead ≠ []) (hr : Apart r) :
    (Token.spell v.tail ++ r).Stops isNameChar ∧ colonAhead (Token.spell v.tail ++ r) = none := by
  have hmark : ∀ {c} (cs : Text), c = '%' ∨ c = '.' →
      Text.Stops isNameChar (c :: cs) ∧ colonAhead (c :: cs) = none := by
    rintro c cs (rfl | rfl)
    all_goals
      refine ⟨Text.stops_cons.mpr rfl, ?_⟩
      exact colonAhead_eq_none (List.forall_mem_nil _) rfl (by decide) cs
  have hend : r.Stops isNameChar ∧ colonAhead r = none :=
    ⟨hr.stops_isNameChar, hr.colonAhead_eq_none⟩
  cases v with
  | word w => exact hend
  | quantity q =>
    obtain ⟨negative, n, m⟩ := q
    cases negative with
    | false => exact absurd rfl h
    | true =>
      cases n with
      | whole digits isDigits =>
        cases m with
        | bare => exact hend
        | letters w => exact hend
        | percent => exact hmark r (.inl rfl)
      | point front behind frontDigits isDigits => exact hmark _ (.inr rfl)

private theorem reads_tail (v : Component) (hr : Apart r) :
    Reads (Token.spell v.tail) v.tail r := by
  cases v with
  | word w => exact .nil r
  | quantity q =>
    obtain ⟨negative, n, m⟩ := q
    cases negative with
    | false =>
      have hspell : Token.spell (quantity ⟨false, n, m⟩).tail = n.text ++ m.text := by
        rw [tail, Token.spell_cons, m.spell_tokens]
      rw [hspell]
      exact reads_quantity n m hr
    | true =>
      cases n with
      | whole digits isDigits =>
        cases m with
        | bare => exact .nil r
        | letters w => exact .nil r
        | percent => exact reads_mark (by simp) (by simp)
      | point front behind frontDigits isDigits =>
        have hspell : Token.spell
            (quantity ⟨true, .point front behind frontDigits isDigits, m⟩).tail =
              '.' :: behind ++ m.text := by
          rw [tail, Token.spell_cons, m.spell_tokens]
        rw [hspell]
        exact reads_quantity (.point [] behind (by simp) isDigits) m hr

private theorem reads (v : Component) (hr : Apart r) : Reads v.text v.reading r := by
  rw [← v.lead_append_tail, reading]
  by_cases h : v.lead = []
  · rw [if_pos h, h]
    exact v.reads_tail hr
  · obtain ⟨c, cs, hlead, hc, hcs⟩ := lead_start h
    obtain ⟨hstops, hcolon⟩ := behind_lead h hr
    rw [if_neg h, hlead]
    exact (reads_lead hc hcs hstops hcolon).append (v.reads_tail hr)

private theorem reads_behind_colon {v : Component} (h : v.lead ≠ []) (hr : Apart r) :
    Reads (':' :: v.text) (⟨.callIdentifier, ':' :: v.lead⟩ :: v.tail) r := by
  obtain ⟨c, cs, hlead, hc, hcs⟩ := lead_start h
  rw [← v.lead_append_tail, hlead]
  exact (reads_pseudo hc hcs (behind_lead h hr).1).append (v.reads_tail hr)

private theorem start (v : Component) :
    ∃ c cs, v.text = c :: cs ∧ Text.isBlank c = false ∧ c ≠ ':' ∧
      (v.lead = [] → isNameStart c = false) := by
  by_cases h : v.lead = []
  · obtain ⟨n, m, rfl⟩ := exists_of_lead_eq_nil h
    obtain ⟨c, cs, htext, hc⟩ := n.start
    have hplain : Text.isBlank c = false ∧ c ≠ ':' ∧ isNameStart c = false := by
      rcases hc with hd | ⟨rfl, -⟩
      · refine ⟨isBlank_of_isNameChar (isNameChar_of_isDigit hd), ?_, isNameStart_of_isDigit hd⟩
        rintro rfl
        contradiction
      · decide
    exact ⟨c, cs ++ m.text, by rw [text, htext]; rfl, hplain.1, hplain.2.1, fun _ => hplain.2.2⟩
  · obtain ⟨c, cs, hlead, hc, -⟩ := lead_start h
    refine ⟨c, cs ++ Token.spell v.tail, by rw [← v.lead_append_tail, hlead]; rfl,
      isBlank_of_isNameChar (isNameChar_of_isNameStart hc), ?_, fun hnil => absurd hnil h⟩
    rintro rfl
    contradiction

private theorem stops_isBlank (v : Component) (r : Text) :
    Text.Stops Text.isBlank (v.text ++ r) := by
  obtain ⟨c, cs, htext, hblank, -, -⟩ := v.start
  rw [htext]
  exact Text.stops_cons.mpr hblank

end Component

private theorem Further.apart_text (f : Further) (r : Text) : Apart (f.text ++ r) := by
  obtain ⟨c, cs, htext, hblank, hcolon, -⟩ := f.component.start
  refine ⟨f.gap.text, c, cs ++ r, ?_, f.gap.blank, hblank, hcolon, fun hnil => absurd hnil f.apart⟩
  rw [text, htext, List.append_assoc]
  rfl

private theorem Further.reads (f : Further) (hr : Apart r) : Reads f.text f.reading r :=
  (reads_gap f.gap (f.component.stops_isBlank r)).append (f.component.reads hr)

private theorem apart_more (fs : List Further) (hr : Apart r) :
    Apart (fs.flatMap Further.text ++ r) := by
  cases fs with
  | nil => exact hr
  | cons f fs =>
    rw [List.flatMap_cons, List.append_assoc]
    exact f.apart_text _

private theorem reads_more (fs : List Further) (hr : Apart r) :
    Reads (fs.flatMap Further.text) (fs.flatMap Further.reading) r := by
  induction fs with
  | nil => exact .nil r
  | cons f fs ih => exact (f.reads (apart_more fs hr)).append ih

end Values

namespace Declaration

variable (d : Declaration)

private theorem apart_end (r : Text) : Apart (d.ending.text ++ (';' :: d.behind.text) ++ r) :=
  ⟨d.ending.text, ';', d.behind.text ++ r, by simp, d.ending.blank, rfl, by decide, fun _ => rfl⟩

private theorem reads_front (r : Text) : Reads d.front d.frontTokens (':' :: r) :=
  (reads_property d.name d.before r).append (reads_gap d.before (Text.stops_cons.mpr rfl))

private theorem reads_end (hr : r.Stops Text.isBlank) :
    Reads (d.ending.text ++ (';' :: d.behind.text)) d.endTokens r := by
  have hmark : Reads [';'] [⟨.text, [';']⟩] (d.behind.text ++ r) :=
    reads_mark (by simp) (by simp)
  exact (reads_gap d.ending (Text.stops_cons.mpr rfl)).append
    (hmark.append (reads_gap d.behind hr))

private theorem reads_first (hr : Apart r) :
    Reads (':' :: (d.after.text ++ d.first.text)) d.firstReading r := by
  rw [firstReading]
  by_cases h : d.after.text = [] ∧ d.first.lead ≠ []
  · rw [if_pos h, h.1]
    exact Component.reads_behind_colon h.2 hr
  · obtain ⟨c, cs, htext, hblank, hcolon, hname⟩ := d.first.start
    -- Behind the colon stands neither a name nor another colon.
    have hbehind : Text.Stops (fun c => isNameStart c || c == ':')
        (d.after.text ++ (d.first.text ++ r)) := by
      cases hgap : d.after.text with
      | nil =>
        have hlead : d.first.lead = [] := by
          by_contra hlead
          exact h ⟨hgap, hlead⟩
        rw [htext]
        exact Text.stops_cons.mpr (by simp [hname hlead, hcolon])
      | cons e es =>
        have he : Text.isBlank e = true := d.after.blank e (hgap ▸ List.mem_cons_self)
        have hstart : isNameStart e = false := eq_false_of_isBlank he isNameChar_of_isNameStart
        have hne : e ≠ ':' := by
          rintro rfl
          contradiction
        exact Text.stops_cons.mpr (by simp [hstart, hne])
    have hmark : Reads [':'] [⟨.text, [':']⟩] (d.after.text ++ (d.first.text ++ r)) :=
      reads_mark (by simp) fun _ => pseudo_eq_none hbehind
    rw [if_neg h]
    exact Reads.append (by rwa [List.append_assoc])
      ((reads_gap d.after (d.first.stops_isBlank r)).append (d.first.reads hr))

private theorem apart_back (r : Text) : Apart (d.back ++ r) := by
  rw [back, List.append_assoc]
  exact apart_more d.more (d.apart_end r)

/-- A declaration, in front of another one. -/
theorem reads (hr : r.Stops Text.isBlank) : Reads d.text d.reading r := by
  have hback : Reads d.back (d.more.flatMap Further.reading ++ d.endTokens) r :=
    (reads_more d.more (d.apart_end r)).append (d.reads_end hr)
  have hvalues := (d.reads_first (d.apart_back r)).append hback
  have htext : d.text = d.front ++ (':' :: (d.after.text ++ d.first.text) ++ d.back) := by
    simp [text]
  rw [htext]
  exact (d.reads_front _).append hvalues

private theorem stops_isBlank (r : Text) : Text.Stops Text.isBlank (d.text ++ r) := by
  obtain ⟨c, cs, htext, hc, -⟩ := d.name.start
  rw [text, front, htext]
  exact Text.stops_cons.mpr (isBlank_of_isNameChar (isNameChar_of_isNameStart hc))

end Declaration

private theorem stops_declarations (ds : List Declaration) :
    Text.Stops Text.isBlank (ds.flatMap Declaration.text ++ []) := by
  cases ds with
  | nil => exact Text.stops_nil _
  | cons d ds =>
    rw [List.flatMap_cons, List.append_assoc]
    exact d.stops_isBlank _

private theorem reads_declarations (ds : List Declaration) :
    Reads (ds.flatMap Declaration.text) (ds.flatMap Declaration.reading) [] := by
  induction ds with
  | nil => exact .nil []
  | cons d ds ih => exact (d.reads (stops_declarations ds)).append ih

section Comparison

/-- Two lists of tokens are the same exactly under some condition, and where it fails no tokens
behind them make up for it. -/
def AgreeIff (p : Prop) (ts us : List Token) : Prop := ∀ xs ys, ts ++ xs = us ++ ys ↔ p ∧ xs = ys

variable {p q : Prop} {ts us ts' us' : List Token}

private theorem AgreeIff.refl (ts : List Token) : AgreeIff True ts ts := by
  intro xs ys
  simp

private theorem AgreeIff.congr (h : AgreeIff p ts us) (hpq : p ↔ q) : AgreeIff q ts us := by
  intro xs ys
  rw [h, hpq]

private theorem AgreeIff.append (h : AgreeIff p ts us) (h' : AgreeIff q ts' us') :
    AgreeIff (p ∧ q) (ts ++ ts') (us ++ us') := by
  intro xs ys
  rw [List.append_assoc, List.append_assoc, h, h', and_assoc]

private theorem AgreeIff.behind (h : AgreeIff p ts us) (xs : List Token) :
    AgreeIff p (xs ++ ts) (xs ++ us) := ((AgreeIff.refl xs).append h).congr (by simp)

private theorem AgreeIff.flatMap {α : Type} {plain : α → Prop} {f g : α → List Token}
    (h : ∀ a, AgreeIff (plain a) (f a) (g a)) (as : List α) :
    AgreeIff (∀ a ∈ as, plain a) (as.flatMap f) (as.flatMap g) := by
  induction as with
  | nil => exact (AgreeIff.refl []).congr (by simp)
  | cons a as ih => exact ((h a).append ih).congr List.forall_mem_cons.symm

private theorem agreeIff_of_kind_ne {t u : Token} (h : t.kind ≠ u.kind) (hp : ¬ p)
    (ts us : List Token) : AgreeIff p (t :: ts) (u :: us) := by
  intro xs ys
  constructor
  · intro hsame
    exact absurd (congrArg Token.kind (List.head_eq_of_cons_eq hsame)) h
  · exact fun hboth => absurd hboth.1 hp

private theorem AgreeIff.eq_iff (h : AgreeIff p ts us) : ts = us ↔ p := by
  have hnil := h [] []
  rwa [List.append_nil, List.append_nil, and_iff_left rfl] at hnil

private theorem Component.agreeIff (v : Component) : AgreeIff v.Unsigned v.reading v.tokens := by
  cases v with
  | word w =>
    have hlead : (word w).lead ≠ [] := w.named
    rw [reading, if_neg hlead]
    exact (AgreeIff.refl _).congr (by simp [Unsigned])
  | quantity q =>
    obtain ⟨negative, n, m⟩ := q
    cases negative with
    | false => exact (AgreeIff.refl _).congr (by simp [Unsigned])
    | true =>
      have hlead : (quantity ⟨true, n, m⟩).lead ≠ [] := by
        intro hnil
        obtain ⟨n', m', hsame⟩ := exists_of_lead_eq_nil hnil
        cases hsame
      rw [reading, if_neg hlead]
      exact agreeIff_of_kind_ne (by simp) (by simp [Unsigned]) _ _

private theorem Further.agreeIff (f : Further) : AgreeIff f.component.Unsigned f.reading f.tokens :=
  f.component.agreeIff.behind f.gap.tokens

namespace Declaration

private theorem agreeIff_first (d : Declaration) :
    AgreeIff ((d.after.text = [] → ∃ q, d.first = .quantity q) ∧ d.first.Unsigned) d.firstReading
      d.firstTokens := by
  rw [firstReading]
  by_cases h : d.after.text = [] ∧ d.first.lead ≠ []
  · rw [if_pos h]
    refine agreeIff_of_kind_ne (by simp) ?_ _ _
    rintro ⟨hapart, hunsigned⟩
    obtain ⟨⟨negative, n, m⟩, hfirst⟩ := hapart h.1
    obtain rfl : negative = false := hunsigned _ hfirst
    exact h.2 (by rw [hfirst]; rfl)
  · rw [if_neg h]
    have hvalue := d.first.agreeIff.behind (⟨.text, [':']⟩ :: d.after.tokens)
    refine hvalue.congr (iff_and_self.mpr fun _ hgap => ?_)
    have hlead : d.first.lead = [] := by
      by_contra hlead
      exact h ⟨hgap, hlead⟩
    obtain ⟨n, m, hfirst⟩ := Component.exists_of_lead_eq_nil hlead
    exact ⟨_, hfirst⟩

private theorem agreeIff (d : Declaration) : AgreeIff d.Plain d.reading d.tokens := by
  have hmore := AgreeIff.flatMap Further.agreeIff d.more
  have hvalues := d.agreeIff_first.append (hmore.append (.refl d.endTokens))
  refine (hvalues.behind d.frontTokens).congr ?_
  constructor
  · rintro ⟨⟨hapart, hfirst⟩, hmore, -⟩
    exact ⟨hapart, hfirst, hmore⟩
  · rintro ⟨hapart, hfirst, hmore⟩
    exact ⟨⟨hapart, hfirst⟩, hmore, trivial⟩

end Declaration

end Comparison

/-- A line of declarations inside a rule. Its tokens are those of the blanks in front and of the
declarations in turn as they are read, and the state is kept. They are the tokens that the grammar
says exactly if no number has a sign and no word stands directly behind a colon: a sign is read as
the start of a name, and a colon with a name behind it as a pseudo-class. -/
theorem declarations_read (indent : Gap) (ds : List Declaration) :
    let read := language.tokenizeLine (indent.text ++ ds.flatMap Declaration.text) State.rule
    read = ⟨indent.tokens ++ ds.flatMap Declaration.reading, State.rule⟩ ∧
      (read.tokens = indent.tokens ++ ds.flatMap Declaration.tokens ↔ ∀ d ∈ ds, d.Plain) := by
  intro read
  have hreads := (reads_gap indent (stops_declarations ds)).append (reads_declarations ds)
  have hread : read = ⟨indent.tokens ++ ds.flatMap Declaration.reading, State.rule⟩ := by
    change (⟨(language.lex [] _ State.rule).1, endLine (language.lex [] _ State.rule).2⟩ :
      LineTokens State) = _
    rw [Language.Advances.finish hreads]
    rfl
  refine ⟨hread, ?_⟩
  rw [hread]
  exact ((AgreeIff.flatMap Declaration.agreeIff ds).behind indent.tokens).eq_iff

def spaces (n : Nat) : Gap where
  text := List.replicate n ' '
  blank := List.forall_mem_replicate.mpr (.inr rfl)

/-- A number stands directly behind the colon, and one has a point and a unit. -/
def shorthand : Declaration where
  name := ⟨"margin".toList, List.cons_ne_nil _ _, List.all_eq_true.mp rfl⟩
  before := spaces 1
  after := spaces 0
  first := .quantity ⟨false, .whole ['0'] ⟨List.cons_ne_nil _ _, rfl⟩, .bare⟩
  more :=
    [⟨spaces 1,
        .quantity ⟨false, .point [] ['5'] (List.forall_mem_nil _) ⟨List.cons_ne_nil _ _, rfl⟩,
          .letters ⟨['e', 'm'], List.cons_ne_nil _ _, List.all_eq_true.mp rfl⟩⟩,
        List.cons_ne_nil _ _⟩,
      ⟨spaces 2, .word ⟨"auto".toList, List.cons_ne_nil _ _, List.all_eq_true.mp rfl⟩,
        List.cons_ne_nil _ _⟩]
  ending := spaces 0
  behind := spaces 1

private theorem shorthand_plain : shorthand.Plain := by
  refine ⟨fun _ => ⟨_, rfl⟩, ?_, ?_⟩
  · rintro q ⟨⟩
    rfl
  · intro f hf
    rcases List.mem_cons.mp hf with rfl | hf
    · rintro q ⟨⟩
      rfl
    · obtain rfl := List.mem_singleton.mp hf
      rintro q ⟨⟩

theorem declarations_read_shorthand :
    let read := language.tokenizeLine "margin :0 .5em  auto; ".toList State.rule
    shorthand.Plain ∧
      read.tokens = [⟨.callIdentifier, "margin".toList⟩, ⟨.whitespace, [' ']⟩, ⟨.text, [':']⟩,
        ⟨.number, ['0']⟩, ⟨.whitespace, [' ']⟩, ⟨.number, ".5".toList⟩, ⟨.identifier, "em".toList⟩,
        ⟨.whitespace, [' ', ' ']⟩, ⟨.identifier, "auto".toList⟩, ⟨.text, [';']⟩,
        ⟨.whitespace, [' ']⟩] := by
  intro read
  have hplain : shorthand.Plain := shorthand_plain
  have hall : ∀ d ∈ [shorthand], d.Plain := List.forall_mem_singleton.mpr hplain
  exact ⟨hplain, (declarations_read (spaces 0) [shorthand]).2.mpr hall⟩

/-- A word directly behind the colon. -/
def glued : Declaration where
  name := ⟨['a'], List.cons_ne_nil _ _, List.all_eq_true.mp rfl⟩
  before := spaces 0
  after := spaces 0
  first := .word ⟨['b'], List.cons_ne_nil _ _, List.all_eq_true.mp rfl⟩
  more := []
  ending := spaces 0
  behind := spaces 0

/-- A number with a sign. -/
def signed : Declaration where
  name := ⟨['a'], List.cons_ne_nil _ _, List.all_eq_true.mp rfl⟩
  before := spaces 0
  after := spaces 1
  first := .quantity ⟨true, .whole ['1'] ⟨List.cons_ne_nil _ _, rfl⟩,
    .letters ⟨['p', 'x'], List.cons_ne_nil _ _, List.all_eq_true.mp rfl⟩⟩
  more := []
  ending := spaces 0
  behind := spaces 0

/-- The word becomes a pseudo-class, and the number with its sign and unit a word. -/
theorem declarations_misread :
    let tokens (line : Text) := (language.tokenizeLine line State.rule).tokens
    glued.text = "a:b;".toList ∧ signed.text = "a: -1px;".toList ∧
      tokens "a:b;".toList = [⟨.callIdentifier, ['a']⟩, ⟨.callIdentifier, [':', 'b']⟩,
        ⟨.text, [';']⟩] ∧
      tokens "a: -1px;".toList = [⟨.callIdentifier, ['a']⟩, ⟨.text, [':']⟩, ⟨.whitespace, [' ']⟩,
        ⟨.identifier, "-1px".toList⟩, ⟨.text, [';']⟩] ∧
      glued.tokens = [⟨.callIdentifier, ['a']⟩, ⟨.text, [':']⟩, ⟨.identifier, ['b']⟩,
        ⟨.text, [';']⟩] ∧
      signed.tokens = [⟨.callIdentifier, ['a']⟩, ⟨.text, [':']⟩, ⟨.whitespace, [' ']⟩,
        ⟨.operator, ['-']⟩, ⟨.number, ['1']⟩, ⟨.identifier, ['p', 'x']⟩, ⟨.text, [';']⟩] ∧
      tokens glued.text ≠ glued.tokens ∧ tokens signed.text ≠ signed.tokens := by
  decide +kernel

end Highlight.Css
