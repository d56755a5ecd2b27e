import Highlight.Proofs.Html.Grammar
import Highlight.Proofs.Html.QuotedValue
import Highlight.Proofs.Lexeme.Number
import Highlight.Proofs.Lexeme.Word
/-! # Reading start tags

A start tag is read piece by piece: its name, the attributes in turn, and its end. Values end in
three ways, but behind each attribute the lexer is at blanks or at the end of the tag, and there it
only matters that the next blanks end a value without quotes. So the flag for such a value is all
that one attribute may leave behind for the next.
-/
namespace Highlight.Html

open Lexeme Pattern

namespace State

/-- Between the name of a tag and its end, perhaps where a value starts or inside one without
quotes. -/
def inside (name : Text) (value : Bool) : State where
  inTag := true
  tagName := some name
  inAttributeValue := value

def quoting (name : Text) (quote : Char) : State :=
  { inside name true with valueOpener := some quote }

/-- Behind the end of a start tag. -/
def behind (name : Text) : State where
  tagName := some name
  embedded := Embedded.forTag? name

end State

open State

/-- A character of a name, which is none of the marks in a tag and no blank. -/
structure IsNameChar (c : Char) : Prop where
  quote : isQuote c = false
  less : c ≠ '<'
  greater : c ≠ '>'
  slash : c ≠ '/'
  equal : c ≠ '='
  ampersand : c ≠ '&'
  blank : Text.isBlank c = false

private theorem isNameChar_of_isWordChar {c : Char} (h : isWordChar c = true) : IsNameChar c := by
  have hmarks : [Text.doubleQuote, Text.singleQuote, '<', '>', '/', '=', '&'].contains c = false :=
    contains_eq_false (f := fun c => !isWordChar c) rfl (by rw [h]; rfl)
  obtain ⟨hdouble, hsingle, hless, hgreater, hslash, hequal, hamp⟩ :
      c ≠ Text.doubleQuote ∧ c ≠ Text.singleQuote ∧ c ≠ '<' ∧ c ≠ '>' ∧ c ≠ '/' ∧ c ≠ '=' ∧
        c ≠ '&' := by simpa using hmarks
  exact ⟨by simp [isQuote, hdouble, hsingle], hless, hgreater, hslash, hequal, hamp,
    isBlank_of_isWordChar h⟩

private theorem Attribute.isNameChar (a : Attribute) : ∀ c ∈ a.name, IsNameChar c := by
  intro c hc
  rcases a.letters c hc with halpha | rfl
  · exact isNameChar_of_isWordChar (by simp [isWordChar, Char.isAlphanum, halpha])
  · exact ⟨rfl, by decide, by decide, by decide, by decide, by decide, rfl⟩

private theorem StartTag.isNameChar (t : StartTag) : ∀ c ∈ t.name, IsNameChar c := by
  intro c hc
  apply isNameChar_of_isWordChar
  rcases List.mem_cons.mp hc with rfl | hc
  · simp [isWordChar, Char.isAlphanum, t.letter]
  · simp [isWordChar, t.alphanumeric c hc]

/-- The end of the tag, or a blank. Names and values without quotes end there. -/
def IsEnd (c : Char) : Prop := c = '>' ∨ Text.isBlank c = true

private theorem IsEnd.ne {c d : Char} (h : IsEnd c) (hd : d ≠ '>')
    (hblank : Text.isBlank d = false) : c ≠ d := by
  rintro rfl
  rcases h with hc | hc
  · exact hd hc
  · rw [hblank] at hc
    contradiction

private theorem IsEnd.stops {f : Char → Bool} {c : Char} (h : IsEnd c) (hend : f '>' = false)
    (hblank : ∀ d, Text.isBlank d = true → f d = false) (r : Text) : Text.Stops f (c :: r) := by
  apply Text.stops_cons.mpr
  rcases h with rfl | hc
  · exact hend
  · exact hblank c hc

private theorem IsEnd.isQuote {c : Char} (h : IsEnd c) : isQuote c = false := by
  have hdouble : c ≠ Text.doubleQuote := h.ne (by decide) rfl
  have hsingle : c ≠ Text.singleQuote := h.ne (by decide) rfl
  simp [Lexeme.isQuote, hdouble, hsingle]

/-- What follows an attribute or the name of a tag: the end of the tag, or blanks behind which no
value is assigned. -/
def Apart (r : Text) : Prop :=
  ∃ gap c cs, r = gap ++ c :: cs ∧ (∀ d ∈ gap, Text.isBlank d = true) ∧ Text.isBlank c = false ∧
    c ≠ '=' ∧ (gap = [] → c = '>')

private theorem apart_attributes (attributes : List Attribute) (gap : Gap) (r : Text) :
    Apart (attributes.flatMap Attribute.text ++ (gap.text ++ ['>'] ++ r)) := by
  cases attributes with
  | nil => exact ⟨gap.text, '>', r, by simp, gap.blank, rfl, by decide, fun _ => rfl⟩
  | cons a attributes =>
    obtain ⟨c, cs, hname⟩ := List.exists_cons_of_ne_nil a.named
    have hc : IsNameChar c := a.isNameChar c (hname ▸ List.mem_cons_self)
    refine ⟨a.gap.text, c, cs ++ a.valueText ++
      (attributes.flatMap Attribute.text ++ (gap.text ++ ['>'] ++ r)), ?_, a.gap.blank, hc.blank,
      hc.equal, fun hnil => absurd hnil a.apart⟩
    simp [Attribute.text, hname]

section

variable {c : Char} {r : Text}

private theorem Apart.head (h : Apart r) : ∃ c cs, r = c :: cs ∧ IsEnd c := by
  obtain ⟨gap, c, cs, rfl, hgap, -, -, hend⟩ := h
  cases gap with
  | nil => exact ⟨c, cs, rfl, .inl (hend rfl)⟩
  | cons d gap => exact ⟨d, gap ++ c :: cs, rfl, .inr (hgap d List.mem_cons_self)⟩

private theorem Apart.equals_eq_none (h : Apart r) : equals r = none := by
  obtain ⟨gap, c, cs, rfl, hgap, hblank, hequal, -⟩ := h
  have htake : optionalBlanks.Takes gap (c :: cs) :=
    takes_many hgap (Text.stops_cons.mpr hblank)
  exact htake.seq_eq_none (seq_eq_none (one_eq_none (Text.stops_cons.mpr (by simpa using hequal))))

private theorem Assignment.takes_sign (a : Assignment) (hr : r.Stops Text.isBlank) :
    equals.Takes a.sign r := by
  have hafter : (all [optionalBlanks]).Takes a.after.text r := by
    have hblanks : optionalBlanks.Takes a.after.text r := takes_many a.after.blank hr
    have hall := hblanks.seq (takes_all_nil r)
    rwa [List.append_nil] at hall
  have hbefore : optionalBlanks.Takes a.before.text (['='] ++ a.after.text ++ r) :=
    takes_many a.before.blank (Text.stops_cons.mpr rfl)
  exact hbefore.seq ((takes_char '=' (a.after.text ++ r)).seq hafter)

private theorem Attribute.stops_isBlank (a : Attribute) (r : Text) :
    Text.Stops Text.isBlank (a.name ++ r) :=
  Text.stops_append a.named (fun c hc => (a.isNameChar c hc).blank) r

private theorem Attribute.stops_ampersand (a : Attribute) (r : Text) :
    Text.Stops (· == '&') (a.name ++ r) :=
  Text.stops_append a.named (fun c hc => by simpa using (a.isNameChar c hc).ampersand) r

private theorem Attribute.takes_name (a : Attribute) (hc : c = '=' ∨ IsEnd c) (r : Text) :
    attributeName.Takes a.name (c :: r) := by
  apply takes_many1 a.named
  · intro d hd
    obtain ⟨hquote, -, hgreater, hslash, hequal, -, hblank⟩ := a.isNameChar d hd
    simp [hquote, hgreater, hslash, hequal, hblank]
  · rcases hc with rfl | hc
    · exact Text.stops_cons.mpr rfl
    · exact hc.stops rfl (fun d hd => by simp [hd]) r

private theorem StartTag.takes_name (t : StartTag) (hc : IsEnd c) (r : Text) :
    tagName.Takes t.name (c :: r) := by
  apply takes_many1 (by simp [StartTag.name])
  · intro d hd
    obtain ⟨hquote, hless, hgreater, hslash, -, -, hblank⟩ := t.isNameChar d hd
    simp [hquote, hless, hgreater, hslash, hblank]
  · exact hc.stops rfl (fun d hd => by simp [hd]) r

end

section Steps

variable {name : Text} {value : Bool} {s : Scanner} {st : State} {c q : Char} {cs last r : Text}

private theorem scan_of_not_entity (hs : s.rest.Stops (· == '&')) (hblock : st.embedded = none)
    (hcomment : st.inBlockComment = false) :
    language.scan s st =
      if st.inAttributeValue then
        st.valueOpener.elim (scanBareValue s st) fun quote => scanQuotedValue quote s st
      else if st.inTag then scanTag s st
      else scanContent s st := by
  have hentity : entity s.rest = none := seq_eq_none (one_eq_none hs)
  change scan s st = _
  rw [scan, hblock]
  change scanMarkup s st = _
  rw [scanMarkup, if_neg (by simp [hcomment]), Scanner.token?_eq_none hentity]
  cases st.valueOpener with
  | none => rfl
  | some quote => rfl

private theorem assignedAttribute?_eq_none (h : attributeName s.rest = none) (st : State) :
    assignedAttribute? s st = none := by
  simp [assignedAttribute?, Scanner.tokenBefore?, Scanner.acceptBefore?, h]

private theorem scan_end (hs : s.rest = c :: r) (hc : IsEnd c) :
    language.scan s (inside name value) =
      (endTag? s (inside name value)
        <|> (s.token? .whitespace blanks).map (·, inside name false)).getD
          (s, inside name value) := by
  -- At blanks and at the end of the tag it only matters for the state behind the blanks whether a
  -- value without quotes comes to its end.
  have hamp : s.rest.Stops (· == '&') := by
    rw [hs]
    exact Text.stops_cons.mpr (by simpa using hc.ne (d := '&') (by decide) rfl)
  cases value with
  | false =>
    have hname : attributeName s.rest = none := by
      rw [hs]
      exact many1_eq_none (hc.stops rfl (fun d hd => by simp [hd]) r)
    have hslash : s.tokenText? .syntaxSymbol ['/', '>'] = none :=
      Scanner.tokenText?_eq_none hs (hc.ne (by decide) rfl) _ _
    have hscan : language.scan s (inside name false) = scanTag s (inside name false) :=
      scan_of_not_entity hamp rfl rfl
    rw [hscan, scanTag, assignedAttribute?_eq_none hname, Scanner.token?_eq_none hname]
    change ((s.tokenText? .syntaxSymbol ['/', '>']).map (·, _) <|> _).getD _ = _
    rw [hslash]
    rfl
  | true =>
    have hvalue : bareValue s.rest = none := by
      rw [hs]
      exact many1_eq_none (hc.stops rfl (fun d hd => by simp [hd]) r)
    have hquote : quote s.rest = none := by
      rw [hs]
      exact one_eq_none (Text.stops_cons.mpr hc.isQuote)
    have hscan : language.scan s (inside name true) = scanBareValue s (inside name true) :=
      scan_of_not_entity hamp rfl rfl
    rw [hscan, scanBareValue, openValue?, Scanner.token?_eq_none hquote,
      Scanner.token?_eq_none hvalue]
    cases endTag? s (inside name true) with
    | some next => rfl
    | none => cases s.token? .whitespace blanks <;> rfl

private theorem advances_gap (gap : Gap) (hgap : gap.text ≠ []) (hr : r.Stops Text.isBlank) :
    language.Advances last (inside name value) gap.text [⟨.whitespace, gap.text⟩] gap.text
      (inside name false) r := by
  have htake : blanks.Takes gap.text r := takes_many1 hgap gap.blank hr
  obtain ⟨c, cs, htext⟩ := List.exists_cons_of_ne_nil hgap
  have hblank : Text.isBlank c = true := gap.blank c (htext ▸ List.mem_cons_self)
  have hs : (Scanner.resume last (gap.text ++ r)).rest = c :: (cs ++ r) := by
    rw [htext]
    rfl
  have hne : c ≠ '>' := by
    rintro rfl
    contradiction
  apply Language.advances_token hgap
  rw [scan_end hs (.inr hblank), endTag?, Scanner.tokenChar?_eq_none hs hne,
    Scanner.token?_of_takes rfl htake]
  rfl

private theorem advances_end :
    language.Advances last (inside name value) ['>'] [⟨.syntaxSymbol, ['>']⟩] ['>'] (behind name)
      r := by
  apply Language.advances_token (by simp)
  rw [scan_end (c := '>') rfl (.inl rfl), endTag?, Scanner.tokenChar?_eq_some (r := r) rfl]
  rfl

private theorem StartTag.openTag?_eq (t : StartTag) (hc : IsEnd c) :
    openTag? (.resume last ('<' :: t.name ++ c :: r)) {} =
      some (⟨'<' :: t.name, c :: r, t.name, [⟨.syntaxSymbol, ['<']⟩, ⟨.keyword, t.name⟩]⟩,
        inside t.name.lowercase false) := by
  have hname : tagName.Takes t.name (c :: r) := t.takes_name hc r
  have hslash : t.initial ≠ '/' := (t.isNameChar _ List.mem_cons_self).slash
  have hopen : tagOpen.Takes ['<'] (t.name ++ c :: r) :=
    (takes_char '<' _).seq (takes_optional_nil (one_eq_none (Text.stops_cons.mpr
      (by simpa using hslash))))
  have haccept : (⟨['<'], t.name ++ c :: r, ['<'], [⟨.syntaxSymbol, ['<']⟩]⟩ : Scanner).accept
      tagName = ⟨'<' :: t.name, c :: r, t.name, [⟨.syntaxSymbol, ['<']⟩]⟩ := by
    have hname : tagName (t.name ++ c :: r) = some t.name.length := hname
    rw [Scanner.accept_of_some hname]
    simp [Scanner.advance]
  have hread : (Scanner.resume last ('<' :: t.name ++ c :: r)).tokenBefore? .syntaxSymbol tagOpen
      tagName = some ⟨['<'], t.name ++ c :: r, ['<'], [⟨.syntaxSymbol, ['<']⟩]⟩ :=
    Scanner.tokenBefore?_of_takes_ahead rfl hopen hname .syntaxSymbol
  rw [openTag?, hread, Option.map_some, haccept]
  rfl

private theorem StartTag.advances_open (t : StartTag) (hc : IsEnd c) :
    language.Advances last {} ('<' :: t.name) [⟨.syntaxSymbol, ['<']⟩, ⟨.keyword, t.name⟩] t.name
      (inside t.name.lowercase false) (c :: r) := by
  have hcomment : (Scanner.resume last ('<' :: t.name ++ c :: r)).acceptText? commentOpen =
      none := by
    rw [Scanner.acceptText?_eq, if_neg]
    rintro ⟨-, more, hmore⟩
    have hbang : '!' = t.initial := List.head_eq_of_cons_eq (List.tail_eq_of_cons_eq hmore)
    have hletter := t.letter
    rw [← hbang] at hletter
    contradiction
  have hscan : language.scan (.resume last ('<' :: t.name ++ c :: r)) {} =
      scanContent (.resume last ('<' :: t.name ++ c :: r)) {} :=
    scan_of_not_entity (Text.stops_cons.mpr rfl) rfl rfl
  apply Language.advances_step ('<' :: t.name) (by simp)
  rw [hscan, scanContent, openComment?, Scanner.tokenText?, hcomment, t.openTag?_eq hc]
  rfl

private theorem Attribute.advances_name (a : Attribute) (hr : Apart r) :
    language.Advances last (inside name false) a.name [⟨.identifier, a.name⟩] a.name
      (inside name false) r := by
  obtain ⟨d, ds, rfl, hd⟩ := hr.head
  have htake : attributeName.Takes a.name (d :: ds) := a.takes_name (.inr hd) ds
  have hscan : language.scan (.resume last (a.name ++ d :: ds)) (inside name false) =
      scanTag (.resume last (a.name ++ d :: ds)) (inside name false) :=
    scan_of_not_entity (a.stops_ampersand (d :: ds)) rfl rfl
  apply Language.advances_token a.named
  rw [hscan, scanTag, assignedAttribute?,
    Scanner.tokenBefore?_of_takes rfl htake hr.equals_eq_none, Scanner.token?_of_takes rfl htake]
  rfl

private theorem Assignment.sign_start (a : Assignment) :
    ∃ c cs, a.sign = c :: cs ∧ (c = '=' ∨ IsEnd c) := by
  rw [sign]
  cases hbefore : a.before.text with
  | nil => exact ⟨'=', a.after.text, rfl, .inl rfl⟩
  | cons c cs =>
    have hblank := a.before.blank c (hbefore ▸ List.mem_cons_self)
    exact ⟨c, cs ++ '=' :: a.after.text, rfl, .inr (.inr hblank)⟩

private theorem Attribute.assignedAttribute?_eq (a : Attribute) (assignment : Assignment)
    (hr : r.Stops Text.isBlank) :
    assignedAttribute? (.resume last (a.name ++ (assignment.sign ++ r))) (inside name false) =
      some (⟨a.name ++ assignment.sign, r, assignment.sign,
        [⟨.identifier, a.name⟩, ⟨.syntaxSymbol, assignment.sign⟩]⟩, inside name true) := by
  have hsign : equals.Takes assignment.sign r := assignment.takes_sign hr
  obtain ⟨c, cs, hstart, hc⟩ := assignment.sign_start
  have hname : attributeName.Takes a.name (assignment.sign ++ r) := by
    rw [hstart]
    exact a.takes_name hc (cs ++ r)
  have hne : assignment.sign ≠ [] := by simp [hstart]
  have hread : (Scanner.resume last (a.name ++ (assignment.sign ++ r))).tokenBefore? .identifier
      attributeName equals =
        some ⟨a.name, assignment.sign ++ r, a.name, [⟨.identifier, a.name⟩]⟩ := by
    rw [Scanner.tokenBefore?_of_takes_ahead rfl hname hsign, Scanner.resume,
      Scanner.advance_emit [] last [] a.named]
    rfl
  have haccept : ((⟨a.name, assignment.sign ++ r, a.name, [⟨.identifier, a.name⟩]⟩ :
      Scanner).accept equals).emit .syntaxSymbol = ⟨a.name ++ assignment.sign, r, assignment.sign,
        [⟨.identifier, a.name⟩, ⟨.syntaxSymbol, assignment.sign⟩]⟩ := by
    have hsign : equals (assignment.sign ++ r) = some assignment.sign.length := hsign
    rw [Scanner.accept_of_some hsign, Scanner.advance_emit _ _ _ hne]
    rfl
  rw [assignedAttribute?, hread, Option.map_some, haccept]
  rfl

private theorem Attribute.advances_assigned (a : Attribute) (assignment : Assignment)
    (hr : r.Stops Text.isBlank) :
    language.Advances last (inside name false) (a.name ++ assignment.sign)
      [⟨.identifier, a.name⟩, ⟨.syntaxSymbol, assignment.sign⟩] assignment.sign
      (inside name true) r := by
  have hscan : language.scan (.resume last (a.name ++ (assignment.sign ++ r)))
      (inside name false) = scanTag (.resume last (a.name ++ (assignment.sign ++ r)))
        (inside name false) := scan_of_not_entity (a.stops_ampersand (assignment.sign ++ r)) rfl rfl
  apply Language.advances_step (a.name ++ assignment.sign) (by simp [a.named])
  rw [List.append_assoc, hscan, scanTag, a.assignedAttribute?_eq assignment hr]
  rfl

private theorem stops_ampersand_of_isQuote (hq : isQuote q = true) (r : Text) :
    Text.Stops (· == '&') (q :: r) := by
  rcases isQuote_iff.mp hq with rfl | rfl
  · exact Text.stops_cons.mpr rfl
  · exact Text.stops_cons.mpr rfl

private theorem advances_openQuote (hq : isQuote q = true) :
    language.Advances last (inside name true) [q] [⟨.string, [q]⟩] [q] (quoting name q) r := by
  have hscan : language.scan (.resume last ([q] ++ r)) (inside name true) =
      scanBareValue (.resume last ([q] ++ r)) (inside name true) :=
    scan_of_not_entity (stops_ampersand_of_isQuote hq r) rfl rfl
  apply Language.advances_token (by simp)
  rw [hscan, scanBareValue]
  rcases isQuote_iff.mp hq with rfl | rfl
  · rfl
  · rfl

private theorem advances_bare {text : Text} (hne : text ≠ [])
    (hfree : ∀ c ∈ text, isQuote c = false ∧ c ≠ '>' ∧ c ≠ '&' ∧ Text.isBlank c = false)
    (hc : IsEnd c) :
    language.Advances last (inside name true) text [⟨.string, text⟩] text (inside name true)
      (c :: r) := by
  have htake : bareValue.Takes text (c :: r) := by
    apply takes_many1 hne
    · intro d hd
      obtain ⟨hquote, hgreater, hamp, hblank⟩ := hfree d hd
      simp [hquote, hgreater, hamp, hblank]
    · exact hc.stops rfl (fun d hd => by simp [hd]) r
  -- The rules that come before the one for values look at the first character alone.
  have hstops : ∀ {f : Char → Bool}, (∀ d ∈ text, f d = false) →
      (Scanner.resume last (text ++ c :: r)).rest.Stops f := fun h =>
    Text.stops_append hne h (c :: r)
  have hgreater := one_eq_none (hstops (f := (· == '>')) fun d hd => by
    simpa using (hfree d hd).2.1)
  have hblanks : blanks _ = none := many1_eq_none (hstops fun d hd => (hfree d hd).2.2.2)
  have hopen : quote _ = none := one_eq_none (hstops fun d hd => (hfree d hd).1)
  have hscan : language.scan (.resume last (text ++ c :: r)) (inside name true) =
      scanBareValue (.resume last (text ++ c :: r)) (inside name true) :=
    scan_of_not_entity (hstops fun d hd => by simpa using (hfree d hd).2.2.1) rfl rfl
  have hend : (Scanner.resume last (text ++ c :: r)).tokenChar? .syntaxSymbol '>' = none :=
    Scanner.token?_eq_none hgreater .syntaxSymbol
  apply Language.advances_token hne
  rw [hscan, scanBareValue, endTag?, hend, Scanner.token?_eq_none hblanks, openValue?,
    Scanner.token?_eq_none hopen, Scanner.token?_of_takes rfl htake]
  rfl

private theorem AttributeValue.advances (v : AttributeValue) (name : Text) (hr : Apart r)
    (last : Text) :
    ∃ tokens last' value, v.ReadAs tokens ∧
      language.Advances last (inside name true) v.text tokens last' (inside name value) r := by
  cases v with
  | quoted q body known free =>
    have hst : (quoting name q).InQuotedValue q := ⟨known, rfl, rfl, rfl, rfl⟩
    have hstop : Text.Stops (· != q) ([q] ++ r) := Text.stops_cons.mpr (by simp)
    obtain ⟨tokens, last', ⟨hspell, -⟩, hstring, hbody⟩ :=
      hst.advances_body hstop body (fun hq => (free q hq).1 rfl) [q]
    have hkinds := hstring fun hampersand => (free '&' hampersand).2 rfl
    have hclose := hbody.trans (hst.advances_close last' r)
    refine ⟨⟨.string, [q]⟩ :: (tokens ++ [⟨.string, [q]⟩]), [q], false, ⟨?_, ?_⟩,
      (advances_openQuote known).trans hclose⟩
    · rw [Token.spell_cons, Token.spell_append, hspell]
      rfl
    · exact List.forall_mem_cons.mpr
        ⟨rfl, List.forall_mem_append.mpr ⟨hkinds, List.forall_mem_singleton.mpr rfl⟩⟩
  | bare text nonempty free =>
    obtain ⟨c, cs, rfl, hc⟩ := hr.head
    refine ⟨[⟨.string, text⟩], text, true, ⟨?_, ?_⟩, advances_bare nonempty free hc⟩
    · exact List.append_nil text
    · simp

private theorem AttributeValue.stops_isBlank (v : AttributeValue) (r : Text) :
    Text.Stops Text.isBlank (v.text ++ r) := by
  cases v with
  | quoted q body known free =>
    apply Text.stops_cons.mpr
    rcases isQuote_iff.mp known with rfl | rfl
    · rfl
    · rfl
  | bare text nonempty free =>
    exact Text.stops_append nonempty (fun c hc => (free c hc).2.2.2) r

private theorem Attribute.advances (a : Attribute) (name : Text) (hr : Apart r) (value : Bool)
    (last : Text) :
    ∃ tokens last' value', a.ReadAs tokens ∧
      language.Advances last (inside name value) a.text tokens last' (inside name value') r := by
  cases hassigned : a.assignment? with
  | none =>
    have hread : a.ReadAs [⟨.whitespace, a.gap.text⟩, ⟨.identifier, a.name⟩] := by
      rw [ReadAs, hassigned]
    have htext : a.text = a.gap.text ++ a.name := by
      rw [text, valueText, hassigned, List.append_nil]
    refine ⟨_, a.name, false, hread, ?_⟩
    rw [htext]
    exact (advances_gap a.gap a.apart (a.stops_isBlank r)).trans (a.advances_name hr)
  | some assignment =>
    obtain ⟨tokens, last', value', hvalue, hadvances⟩ :=
      assignment.value.advances name hr assignment.sign
    have hread : a.ReadAs ([⟨.whitespace, a.gap.text⟩, ⟨.identifier, a.name⟩,
        ⟨.syntaxSymbol, assignment.sign⟩] ++ tokens) := by
      rw [ReadAs, hassigned]
      exact ⟨tokens, hvalue, rfl⟩
    have htext : a.text =
        a.gap.text ++ (a.name ++ assignment.sign ++ assignment.value.text) := by
      rw [text, valueText, hassigned, List.append_assoc]
    have hstop : Text.Stops Text.isBlank
        (a.name ++ assignment.sign ++ assignment.value.text ++ r) := by
      rw [List.append_assoc, List.append_assoc]
      exact a.stops_isBlank _
    refine ⟨_, last', value', hread, ?_⟩
    rw [htext]
    have hsign := assignment.value.stops_isBlank r
    exact (advances_gap a.gap a.apart hstop).trans
      ((a.advances_assigned assignment hsign).trans hadvances)

private theorem attributes_advance (name : Text) (gap : Gap) (attributes : List Attribute)
    (value : Bool) (last r : Text) :
    ∃ pieces last' value', List.Forall₂ Attribute.ReadAs attributes pieces ∧
      language.Advances last (inside name value) (attributes.flatMap Attribute.text)
        pieces.flatten last' (inside name value') (gap.text ++ ['>'] ++ r) := by
  induction attributes generalizing value last with
  | nil => exact ⟨[], last, value, .nil, .refl _ _ _ _⟩
  | cons a attributes ih =>
    obtain ⟨tokens, last₁, value₁, hread, hadvances⟩ :=
      a.advances name (apart_attributes attributes gap r) value last
    obtain ⟨pieces, last₂, value₂, hreads, hmore⟩ := ih value₁ last₁
    refine ⟨tokens :: pieces, last₂, value₂, .cons hread hreads, ?_⟩
    rw [List.flatMap_cons, List.flatten_cons]
    exact hadvances.trans hmore

private theorem advances_tail (gap : Gap) :
    language.Advances last (inside name value) (gap.text ++ ['>'])
      (gap.tokens ++ [⟨.syntaxSymbol, ['>']⟩]) ['>'] (behind name) r := by
  by_cases hgap : gap.text = []
  · have htokens : gap.tokens = [] := by
      rw [Gap.tokens, hgap]
      rfl
    rw [hgap, htokens]
    exact advances_end
  · have htokens : gap.tokens = [⟨.whitespace, gap.text⟩] := by
      rw [Gap.tokens, if_neg (by simpa using hgap)]
    have hstop : Text.Stops Text.isBlank (['>'] ++ r) := Text.stops_cons.mpr rfl
    rw [htokens]
    exact (advances_gap gap hgap hstop).trans advances_end

/-- A start tag in front of anything. -/
theorem StartTag.advances (t : StartTag) (last r : Text) :
    ∃ tokens, t.ReadAs tokens ∧
      language.Advances last {} t.text tokens ['>'] (behind t.name.lowercase) r := by
  obtain ⟨c, cs, hstart, hc⟩ := (apart_attributes t.attributes t.gap r).head
  obtain ⟨pieces, last', value, hreads, hattributes⟩ :=
    attributes_advance t.name.lowercase t.gap t.attributes false t.name r
  have hopen : language.Advances last {} ('<' :: t.name) _ t.name _ (c :: cs) :=
    t.advances_open hc
  rw [← hstart, ← List.append_assoc] at hopen
  exact ⟨_, ⟨pieces, hreads, rfl⟩, hopen.trans (hattributes.trans (advances_tail t.gap))⟩

end Steps

/-- Every start tag on a line of its own is read as its name, its attributes in turn, each as blanks,
a name and perhaps a sign and a value, and its end. Behind it the contents of its element begin: no
tag and no value is open, and a block is if the name in lower case is that of one. -/
theorem start_tag_read (t : StartTag) :
    let read := language.tokenizeLine t.text language.initial
    t.ReadAs read.tokens ∧
      read.outbound =
        { tagName := some t.name.lowercase, embedded := Embedded.forTag? t.name.lowercase } := by
  intro read
  obtain ⟨tokens, htokens, hadvances⟩ := t.advances [] []
  have hread : read = ⟨tokens, behind t.name.lowercase⟩ := by
    change (⟨(language.lex [] t.text {}).1, endLine (language.lex [] t.text {}).2⟩ :
      LineTokens State) = _
    rw [hadvances.finish]
    rfl
  rw [hread]
  exact ⟨htokens, rfl⟩

/-- A tag with an attribute of each form. The value in quotes holds what could end one without, and
the last value ends at blanks. -/
def scriptTag : StartTag where
  initial := 'S'
  more := "cript".toList
  attributes :=
    [⟨⟨[' '], by simp [Text.isBlank]⟩, ['a'],
        some ⟨⟨[' '], by simp [Text.isBlank]⟩, ⟨['\t'], by simp [Text.isBlank]⟩,
          .quoted Text.doubleQuote "b > '=/".toList rfl (by simp [Text.doubleQuote])⟩,
        by simp, by simp, by simp⟩,
      ⟨⟨[' '], by simp [Text.isBlank]⟩, "data-x".toList, none, by simp, by simp, by simp⟩,
      ⟨⟨[' '], by simp [Text.isBlank]⟩, "TYPE".toList,
        some ⟨⟨[], by simp⟩, ⟨[], by simp⟩, .bare "m/j=".toList (by simp)
          (by simp [isQuote, Text.isBlank, Text.doubleQuote, Text.singleQuote])⟩,
        by simp, by simp, by simp⟩]
  gap := ⟨[' ', ' '], by simp [Text.isBlank]⟩
  letter := rfl
  alphanumeric := by simp

theorem start_tag_read_script :
    let read := language.tokenizeLine scriptTag.text language.initial
    scriptTag.text = "<Script a =\t\"b > '=/\" data-x TYPE=m/j=  >".toList ∧
      scriptTag.ReadAs read.tokens ∧
      read.outbound = { tagName := some "script".toList, embedded := some (.javaScript {}) } := by
  intro read
  obtain ⟨htokens, houtbound⟩ := start_tag_read scriptTag
  exact ⟨rfl, htokens, houtbound⟩

end Highlight.Html
