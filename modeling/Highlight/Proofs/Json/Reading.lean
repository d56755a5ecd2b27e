import Mathlib.Data.List.Forall2
import Highlight.Proofs.Json.Element
/-! # Reading JSON texts

However a JSON value is laid out over lines, every lexical element becomes what it is, names of
members are told from other strings, and no state is left behind. The grammar is followed on the
level of elements: the state in front of every string knows whether it names a member. Lines read
elements one by one, so it does not matter where they end.
-/
namespace Highlight.Json

open Lexeme

/-- The state behind an element. -/
def State.behind (st : State) : Element → State
  | .beginObject => st.passBracket .object true
  | .endObject => st.passBracket .object false
  | .beginArray => st.passBracket .array true
  | .endArray => st.passBracket .array false
  | .nameSeparator => { st with inObjectKey := false }
  | .valueSeparator => { st with inObjectKey := st.inObjectKey || st.inObject }
  | .literal _ | .number _ | .name _ | .string _ => st

/-- A string names a member exactly where the state expects that. -/
def State.Expects (st : State) : Element → Prop
  | .name _ => st.inObjectKey = true
  | .string _ => st.inObjectKey = false
  | _ => True

/-- Elements that start with a bracket or a separator, if with any. -/
def SetApart (es : List Element) : Prop := ∀ e ∈ es.head?, e.isStructural = true

/-- Elements that lead from a state to another one: each is expected where it stands, and of any two
neighbours one is a bracket or a separator. -/
inductive Leads : State → List Element → State → Prop
  | refl (st : State) : Leads st [] st
  | step {st st' : State} {e : Element} {es : List Element} (expected : st.Expects e)
      (apart : e.isStructural = true ∨ SetApart es) (rest : Leads (st.behind e) es st') :
      Leads st (e :: es) st'

private theorem State.BetweenElements.behind {st : State} (h : st.BetweenElements) (e : Element) :
    (st.behind e).BetweenElements := by
  cases e <;> exact ⟨h.stringOpener, h.newlineEscape, h.inBlockComment⟩

private theorem Leads.between {st st' : State} {es : List Element} (h : Leads st es st')
    (hst : st.BetweenElements) : st'.BetweenElements := by
  induction h with
  | refl st => exact hst
  | @step st st' e es _ _ _ ih => exact ih (hst.behind e)

private theorem Leads.split {st st' : State} {es fs : List Element} (h : Leads st (es ++ fs) st') :
    ∃ mid, Leads st es mid ∧ Leads mid fs st' := by
  induction es generalizing st with
  | nil => exact ⟨st, .refl st, h⟩
  | cons e es ih =>
    cases h with
    | step expected apart rest =>
      obtain ⟨mid, hfront, hback⟩ := ih rest
      refine ⟨mid, .step expected (apart.imp_right fun hes => ?_) hfront, hback⟩
      cases es with
      | nil => simp [SetApart]
      | cons f es => exact hes

private theorem setApart_nil : SetApart [] := by simp [SetApart]

private theorem setApart_cons {e : Element} {es : List Element} (h : e.isStructural = true) :
    SetApart (e :: es) := by
  simpa [SetApart] using h

mutual

private theorem Datum.leads {st st' : State} {es : List Element} (d : Datum)
    (hkey : st.inObjectKey = false) (hes : SetApart es)
    (h : ∀ key, (st.inObject = false → key = false) →
      Leads { st with inObjectKey := key } es st') : Leads st (d.elements ++ es) st' := by
  -- A bracket that closes sets the flag for names again, so what stands behind a value in an object
  -- must not count on the flag.
  have hsame : Leads st es st' := h st.inObjectKey fun _ => hkey
  match d with
  | .literal name => exact .step trivial (.inr hes) hsame
  | .number n => exact .step trivial (.inr hes) hsame
  | .string s => exact .step hkey (.inr hes) hsame
  | .array items =>
    have hclose : Leads (st.passBracket .array true) (.endArray :: es) st' :=
      .step trivial (.inl rfl) (h st.inObject id)
    have hitems := itemElements_lead items rfl rfl (setApart_cons rfl) hclose
    rw [Datum.elements, List.cons_append, List.append_assoc]
    exact .step trivial (.inl rfl) hitems
  | .object members =>
    have hclose : ∀ key, Leads { st.passBracket .object true with inObjectKey := key }
        (.endObject :: es) st' := fun key => .step trivial (.inl rfl) (h st.inObject id)
    have hmembers := memberElements_lead members rfl rfl (setApart_cons rfl) hclose
    rw [Datum.elements, List.cons_append, List.append_assoc]
    exact .step trivial (.inl rfl) hmembers

private theorem itemElements_lead {st st' : State} {es : List Element} (ds : List Datum)
    (hkey : st.inObjectKey = false) (hobject : st.inObject = false) (hes : SetApart es)
    (h : Leads st es st') : Leads st (itemElements ds ++ es) st' := by
  have hback : ∀ {key fs}, (st.inObject = false → key = false) → Leads st fs st' →
      Leads { st with inObjectKey := key } fs st' := by
    intro key fs hfalse hfs
    rwa [hfalse hobject, ← hkey]
  match ds with
  | [] => exact h
  | [d] => exact d.leads hkey hes fun key hfalse => hback hfalse h
  | d :: e :: ds =>
    have hmore : Leads st (.valueSeparator :: (itemElements (e :: ds) ++ es)) st' := by
      have hkept : st.behind .valueSeparator = st := by
        rw [State.behind, hobject, Bool.or_false]
      exact .step trivial (.inl rfl) (hkept.symm ▸ itemElements_lead (e :: ds) hkey hobject hes h)
    rw [itemElements, List.append_assoc]
    exact d.leads hkey (setApart_cons rfl) fun key hfalse => hback hfalse hmore

private theorem memberElements_lead {st st' : State} {es : List Element}
    (ms : List (Quoted × Datum))
    (hkey : st.inObjectKey = true) (hobject : st.inObject = true) (hes : SetApart es)
    (h : ∀ key, Leads { st with inObjectKey := key } es st') :
    Leads st (memberElements ms ++ es) st' := by
  match ms with
  | [] => exact h st.inObjectKey
  | [(name, d)] =>
    have hvalue : Leads { st with inObjectKey := false } (d.elements ++ es) st' :=
      d.leads rfl hes fun key _ => h key
    exact .step hkey (.inr (setApart_cons rfl)) (.step trivial (.inl rfl) hvalue)
  | (name, d) :: m :: ms =>
    have hmore : ∀ key, Leads { st with inObjectKey := key }
        (.valueSeparator :: (memberElements (m :: ms) ++ es)) st' := by
      intro key
      have hname : (key || st.inObject) = true := by rw [hobject, Bool.or_true]
      exact .step trivial (.inl rfl) (memberElements_lead (m :: ms) hname hobject hes h)
    have hvalue : Leads { st with inObjectKey := false }
        (d.elements ++ .valueSeparator :: (memberElements (m :: ms) ++ es)) st' :=
      d.leads rfl (setApart_cons rfl) fun key _ => hmore key
    rw [memberElements, List.cons_append, List.cons_append, List.append_assoc]
    exact .step hkey (.inr (setApart_cons rfl)) (.step trivial (.inl rfl) hvalue)

end

variable {st st' : State} {last r : Text}

/-- An element in front of something that could not go on with it. -/
theorem Element.advances (e : Element) (hst : st.BetweenElements) (hexpected : st.Expects e)
    (hlast : last ≠ ['.']) (hr : e.isStructural = true ∨ r.Stops isJoining) :
    ∃ tokens last', e.ReadAs tokens ∧ last' ≠ ['.'] ∧
      language.Advances last st e.text tokens last' (st.behind e) r := by
  have hstart : e.text ≠ ['.'] := by
    obtain ⟨c, cs, htext, -, hpoint⟩ := e.text_start
    rw [htext]
    rintro ⟨⟩
    contradiction
  cases e with
  | beginObject => exact ⟨_, _, rfl, hstart, advances_bracket hst rfl (by decide) rfl⟩
  | endObject => exact ⟨_, _, rfl, hstart, advances_bracket hst rfl (by decide) rfl⟩
  | beginArray => exact ⟨_, _, rfl, hstart, advances_bracket hst rfl (by decide) rfl⟩
  | endArray => exact ⟨_, _, rfl, hstart, advances_bracket hst rfl (by decide) rfl⟩
  | nameSeparator => exact ⟨_, _, rfl, hstart, advances_nameSeparator hst⟩
  | valueSeparator => exact ⟨_, _, rfl, hstart, advances_valueSeparator hst⟩
  | literal name =>
    have hr : r.Stops isJoining := hr.resolve_left Bool.false_ne_true
    exact ⟨_, _, rfl, hstart, name.advances hst hlast hr⟩
  | number n =>
    have hr : r.Stops isJoining := hr.resolve_left Bool.false_ne_true
    exact ⟨_, _, rfl, hstart, n.advances hst hr⟩
  | name s =>
    obtain ⟨tokens, hcover, hadvances⟩ := s.advances hst last r
    have hkind : st.stringKind = .identifier := if_pos hexpected
    rw [hkind] at hcover
    exact ⟨tokens, _, hcover, by decide, hadvances⟩
  | string s =>
    obtain ⟨tokens, hcover, hadvances⟩ := s.advances hst last r
    have hkind : st.stringKind = .string := if_neg (Bool.eq_false_iff.mp hexpected)
    rw [hkind] at hcover
    exact ⟨tokens, _, hcover, by decide, hadvances⟩

private theorem advances_gap (hst : st.BetweenElements) (gap : List Blank) (hlast : last ≠ ['.'])
    (hr : r.Stops Text.isBlank) :
    ∃ last', last' ≠ ['.'] ∧
      language.Advances last st (blankText gap) (blankTokens gap) last' st r := by
  cases gap with
  | nil => exact ⟨last, hlast, .refl language last st r⟩
  | cons b gap =>
    have hstart : blankText (b :: gap) ≠ ['.'] := by
      cases b <;> rintro ⟨⟩
    exact ⟨blankText (b :: gap), hstart, advances_blanks hst (by simp) hr⟩

private theorem stops_isBlank (cells : List Cell) :
    Text.Stops Text.isBlank (cells.flatMap Cell.text ++ []) := by
  cases cells with
  | nil => exact Text.stops_nil _
  | cons c cells =>
    obtain ⟨d, ds, htext, hblank, -⟩ := c.element.text_start
    rw [List.flatMap_cons, Cell.text, htext]
    exact Text.stops_cons.mpr hblank

private theorem stops_isJoining (gap : List Blank) {cells : List Cell}
    (h : SetApart (cells.map Cell.element)) :
    Text.Stops isJoining (blankText gap ++ (cells.flatMap Cell.text ++ [])) := by
  cases gap with
  | nil =>
    cases cells with
    | nil => exact Text.stops_nil _
    | cons c cells =>
      rw [List.flatMap_cons, Cell.text, List.append_assoc, List.append_assoc]
      exact c.element.stops_isJoining (h c.element rfl) _
  | cons b gap =>
    apply Text.stops_cons.mpr
    cases b <;> rfl

private theorem cells_advance {cells : List Cell} (h : Leads st (cells.map Cell.element) st')
    (hst : st.BetweenElements) (hlast : last ≠ ['.']) :
    ∃ tokens last', ReadCells cells tokens ∧
      language.Advances last st (cells.flatMap Cell.text) tokens last' st' [] := by
  induction cells generalizing st last with
  | nil =>
    cases h
    exact ⟨[], last, .nil, .refl language last _ []⟩
  | cons c cells ih =>
    cases h with
    | step expected apart rest =>
      have hr := apart.imp_right (stops_isJoining c.gap)
      obtain ⟨tokens, last₁, hread, hlast₁, helement⟩ := c.element.advances hst expected hlast hr
      have hbehind := hst.behind c.element
      obtain ⟨last₂, hlast₂, hgap⟩ := advances_gap hbehind c.gap hlast₁ (stops_isBlank cells)
      obtain ⟨more, last₃, hcells, hmore⟩ := ih rest hbehind hlast₂
      refine ⟨_, last₃, .cons hread hcells, ?_⟩
      rw [List.flatMap_cons, Cell.text]
      exact (helement.trans hgap).trans hmore

private theorem Row.tokenizeLine (row : Row) (h : Leads st row.elements st')
    (hst : st.BetweenElements) :
    row.ReadAs (language.tokenizeLine row.text st).tokens ∧
      (language.tokenizeLine row.text st).outbound = st' := by
  have hbegin : language.beginLine st = st := by
    change { st with newlineEscape := false } = st
    rw [← hst.newlineEscape]
  have hst' := h.between hst
  have hend : language.endLine st' = st' := by
    change endLine st' = st'
    rw [endLine, if_neg (Bool.eq_false_iff.mp hst'.newlineEscape), ← hst'.stringOpener]
  have hfirst : ([] : Text) ≠ ['.'] := by simp
  obtain ⟨last₁, hlast₁, hindent⟩ := advances_gap hst row.indent hfirst (stops_isBlank row.cells)
  obtain ⟨tokens, last₂, hread, hcells⟩ := cells_advance h hst hlast₁
  have hlex := (hindent.trans hcells).finish
  rw [Language.tokenizeLine, hbegin, Row.text, hlex]
  exact ⟨⟨tokens, hread, rfl⟩, hend⟩

/-- Lines of a layout in turn. -/
theorem rows_read {rows : List Row} (h : Leads st (rows.flatMap Row.elements) st')
    (hst : st.BetweenElements) :
    List.Forall₂ Row.ReadAs rows
      ((language.tokenizer.thread st (rows.map Row.text)).map LineTokens.tokens) ∧
    language.tokenizer.behind st (rows.map Row.text) = st' := by
  induction rows generalizing st with
  | nil =>
    cases h
    exact ⟨.nil, rfl⟩
  | cons row rows ih =>
    obtain ⟨mid, hrow, hrows⟩ := Leads.split h
    obtain ⟨hread, hout⟩ := row.tokenizeLine hrow hst
    obtain ⟨hreads, hlast⟩ := ih hrows (hrow.between hst)
    rw [← hout] at hreads hlast
    exact ⟨.cons hread hreads, hlast⟩

/-- However a value is laid out, each of its elements and the blanks between them are read as what
they are, and the state behind the last line is the one in front of the first. -/
theorem layout_read {d : Datum} (l : Layout d) :
    List.Forall₂ Row.ReadAs l.rows
      ((language.tokenizer.document l.lines).map LineTokens.tokens) ∧
    language.tokenizer.behind language.initial l.lines = language.initial := by
  have hvalue : Leads language.initial (d.elements ++ []) language.initial := by
    apply d.leads rfl setApart_nil
    intro key hkey
    rw [hkey rfl]
    exact .refl _
  rw [List.append_nil, ← l.elements_eq] at hvalue
  exact rows_read hvalue ⟨rfl, rfl, rfl⟩

/-- An object with an array and a string in it. Of the escapes, the lexer does not know `\/`. -/
def nested : Datum :=
  .object
    [(⟨[.plain 'k' (by decide), .short '/' (by decide)]⟩,
      .array
        [.literal ⟨"true".toList, by decide⟩,
          .number ⟨true, "10".toList, ".5".toList, "E+2".toList, by decide,
            .inr ⟨['5'], by decide, rfl⟩,
            .inr ⟨'E', ['+'], ['2'], by decide, by decide, by decide, rfl⟩⟩]),
      (⟨[.plain Text.singleQuote (by decide)]⟩,
        .string ⟨[.number "00e9".toList rfl (by decide), .short Text.doubleQuote (by decide)]⟩)]

/-- The elements of `nested` on three lines, the middle one indented. -/
def nestedRows : List Row :=
  let cells := nested.elements.map fun e => Cell.mk e []
  [⟨[], cells.take 4⟩, ⟨[.tab, .space], (cells.drop 4).take 4⟩, ⟨[], cells.drop 8⟩]

theorem layout_read_nested :
    nestedRows.map Row.text = ["\x7b\"k\\/\":[".toList, "\t true,-10.5E+2]".toList,
      ",\"'\":\"\\u00e9\\\"\"\x7d".toList] ∧
    List.Forall₂ Row.ReadAs nestedRows
      ((language.tokenizer.document (nestedRows.map Row.text)).map LineTokens.tokens) ∧
    language.tokenizer.behind language.initial (nestedRows.map Row.text) = language.initial :=
  ⟨rfl, layout_read (d := nested) ⟨nestedRows, rfl⟩⟩

end Highlight.Json
