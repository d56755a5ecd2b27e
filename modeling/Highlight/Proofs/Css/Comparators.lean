import Highlight.Proofs.Css.Strings
import Highlight.Proofs.Language.Emission
import Highlight.Proofs.Language.Point
/-! # Words behind comparators

The flag for the value of a comparator outlives what the rules in front of those for strings read:
brackets, comments and escape sequences. So at every point of a document it tells that the last
token but for these is a comparator, and a bare word that becomes a string stands behind one in that
sense alone.
-/
namespace Highlight.Css

open Lexeme Pattern

def isComparator (t : Token) : Bool := t.kind == .operator && comparators.contains t.text

/-- A token that leaves the flag as it is. -/
def isTransparent (t : Token) : Bool :=
  t.kind == .comment || t.kind == .escape ||
    t.kind == .text && brackets.any fun bracket => t.text == [bracket]

/-- Any other token that is no string. -/
def isOther (t : Token) : Bool := !isTransparent t && !isComparator t && t.kind != .string

/-- The last token that is not transparent is a comparator. -/
def endsInComparator (tokens : List Token) : Bool :=
  (tokens.reverse.find? (!isTransparent ·)).any isComparator

/-- What a turn may add to the tokens, and what it does to the flag and to an open string. -/
inductive Turn (st : State) : List Token → State → Prop
  | transparent {t : Token} {st' : State} (ht : isTransparent t = true)
      (flag : st'.afterComparator = st.afterComparator)
      (opener : st'.stringOpener = st.stringOpener) : Turn st [t] st'
  | within {w : Text} {st' : State} (inside : st.stringOpener ≠ none)
      (flag : st'.afterComparator = st.afterComparator) : Turn st [⟨.string, w⟩] st'
  | opens {w : Text} {st' : State} (flag : st'.afterComparator = false)
      (opener : st'.stringOpener ≠ none) : Turn st [⟨.string, w⟩] st'
  | value {w : Text} {st' : State} (set : st.afterComparator = true)
      (flag : st'.afterComparator = false) (opener : st'.stringOpener = none) :
      Turn st [⟨.string, w⟩] st'
  | comparator {t : Token} {st' : State} (ht : isComparator t = true)
      (flag : st'.afterComparator = true) (opener : st'.stringOpener = none) : Turn st [t] st'
  | other {tokens : List Token} {st' : State} (hne : tokens ≠ [])
      (others : ∀ t ∈ tokens, isOther t = true) (flag : st'.afterComparator = false)
      (opener : st'.stringOpener = none) : Turn st tokens st'

section Turns

/-- What a step does is a turn, if it emits nothing with the character as plain text. -/
def StepsTo (st : State) (c : Char) (tokens : List Token) (st' : State) : Prop :=
  Turn st (if tokens = [] then [⟨.text, [c]⟩] else tokens) st'

variable {st st' : State} {c : Char} {cs last w : Text} {t : Token} {tokens : List Token}
  {kind : TokenKind}

private theorem Turn.stepsTo (h : Turn st tokens st') (hne : tokens ≠ []) :
    StepsTo st c tokens st' := by
  rwa [StepsTo, if_neg hne]

/-- The kinds that only tokens of the last sort have. -/
def otherKinds : List TokenKind := [.keyword, .identifier, .callIdentifier, .number, .whitespace]

private theorem isOther_of_kind (h : otherKinds.contains kind = true) (w : Text) :
    isOther ⟨kind, w⟩ = true := by
  cases kind <;> first | rfl | contradiction

private theorem stepsTo_transparent (ht : isTransparent t = true)
    (flag : st'.afterComparator = st.afterComparator)
    (opener : st'.stringOpener = st.stringOpener) : StepsTo st c [t] st' :=
  (Turn.transparent ht flag opener).stepsTo (by simp)

private theorem stepsTo_other (ht : isOther t = true) (flag : st'.afterComparator = false)
    (opener : st'.stringOpener = none) : StepsTo st c [t] st' :=
  (Turn.other (by simp) (by simpa using ht) flag opener).stepsTo (by simp)

private theorem scanComment_stepsTo (hcomment : st.inBlockComment = true) :
    Emits (StepsTo st c) (some (scan (.resume last (c :: cs)) st)) := by
  have hscan : ∀ s : Scanner, scan s st =
      ((s.tokenText? .comment blockClose).map (·, { st with inBlockComment := false })).getD
        ((s.accept (commentBody blockClose)).emit .comment,
          { st with inBlockComment := true }) := by
    intro s
    rw [scan, if_pos hcomment, scanComment]
    cases s.tokenText? .comment blockClose <;> rfl
  have hmoves : Moves (commentBody blockClose) := ((moves_one _).seq _).alt (moves_one _)
  have hclose : Emits (StepsTo st c) (((Scanner.resume last (c :: cs)).tokenText? .comment
      blockClose).map (·, { st with inBlockComment := false })) :=
    .tokenText (stepsTo_transparent rfl rfl rfl)
  have hbody : Emits (StepsTo st c) (some (((Scanner.resume last (c :: cs)).accept
      (commentBody blockClose)).emit .comment, { st with inBlockComment := true })) :=
    .accept (commentBody_total blockClose) hmoves fun w => stepsTo_transparent rfl rfl rfl
  rw [hscan]
  exact hclose.getD (hbody _ rfl)

private theorem shared_stepsTo (last : Text) (c : Char) (cs : Text) (st : State) :
    Emits (StepsTo st c) (bracket? (.resume last (c :: cs)) st
      <|> openComment? (.resume last (c :: cs)) st
      <|> ((Scanner.resume last (c :: cs)).token? .escape escape).map (·, st)) := by
  have hbracket : Emits (StepsTo st c) (bracket? (.resume last (c :: cs)) st) := by
    refine .orElse (.tokenChar fun _ => ?_) (.orElse (.tokenChar fun _ => ?_)
      (.orElse (.tokenChar fun _ => ?_) (.tokenChar fun _ => ?_)))
    all_goals exact stepsTo_transparent rfl rfl rfl
  have hcomment : Emits (StepsTo st c) (openComment? (.resume last (c :: cs)) st) :=
    .tokenText (stepsTo_transparent rfl rfl rfl)
  have hescape : Emits (StepsTo st c)
      (((Scanner.resume last (c :: cs)).token? .escape escape).map (·, st)) :=
    .token ((moves_one _).seq _) fun _ _ => stepsTo_transparent rfl rfl rfl
  exact hbracket.orElse (hcomment.orElse hescape)

private theorem scanString_stepsTo {quote : Char} (hopener : st.stringOpener = some quote) :
    Emits (StepsTo st c) (some (scanString quote (.resume last (c :: cs)) st)) := by
  have hinside : st.stringOpener ≠ none := by simp [hopener]
  have hscan : ∀ s : Scanner, scanString quote s st =
      ((s.tokenChar? .string quote).map (·, { st with stringOpener := none })).getD
        ((s.accept (alt stringBody (one fun _ => true))).emit .string, st) := by
    intro s
    rw [scanString]
    cases s.tokenChar? .string quote <;> rfl
  have hmoves : Moves (alt stringBody (one fun _ => true)) :=
    ((moves_one _).seq _).alt (moves_one _)
  have hclose : Emits (StepsTo st c) (((Scanner.resume last (c :: cs)).tokenChar? .string
      quote).map (·, { st with stringOpener := none })) :=
    .tokenChar fun _ => Turn.stepsTo (.within hinside rfl) (by simp)
  have hbody : Emits (StepsTo st c) (some (((Scanner.resume last (c :: cs)).accept
      (alt stringBody (one fun _ => true))).emit .string, st)) :=
    .accept stringPiece_total hmoves fun _ => Turn.stepsTo (.within hinside rfl) (by simp)
  rw [hscan]
  exact hclose.getD (hbody _ rfl)

private theorem openString?_stepsTo :
    Emits (StepsTo st c) (openString? (.resume last (c :: cs)) st) := by
  refine Emits.tokenMatch (p := quote) (moves_one _)
    (fun mark => { st with stringOpener := mark.head?, afterComparator := false }) fun n hn => ?_
  obtain ⟨rfl, -⟩ := one_eq_some hn
  exact Turn.stepsTo (.opens rfl (by simp)) (by simp)

private theorem isOther_of_operator : ∀ t ∈ operators, isOther ⟨.operator, t⟩ = true := by decide

private theorem quantity?_stepsTo (flag : st'.afterComparator = false)
    (opener : st'.stringOpener = none) :
    Emits (StepsTo st c) ((quantity? (.resume last (c :: cs))).map (·, st')) := by
  have hmoves : Moves number := .alt (((moves_one _).seq _).seq_right _) ((moves_one _).seq _)
  have hnumber : Emits (fun tokens _ => ∃ w, tokens = [⟨.number, w⟩])
      (((Scanner.resume last (c :: cs)).token? .number number).map (·, st')) :=
    .token hmoves fun n _ => ⟨_, rfl⟩
  intro next hnext
  obtain ⟨u, hu, rfl⟩ := Option.map_eq_some_iff.mp hnext
  obtain ⟨v, hv, rfl⟩ := Option.map_eq_some_iff.mp hu
  obtain ⟨w, htokens⟩ := hnumber (v, st') (by simp [hv])
  have hunit : ∃ more, ((v.token? .identifier unit).getD v).tokens = ⟨.number, w⟩ :: more ∧
      ∀ t ∈ more, isOther t = true := by
    cases hread : v.token? .identifier unit with
    | none => exact ⟨[], htokens, by simp⟩
    | some u =>
      obtain ⟨n, -, rfl⟩ := Scanner.token?_eq_some hread
      have hsame : (v.advance n).tokens = [⟨.number, w⟩] := htokens
      by_cases hempty : (v.advance n).lastMatch = []
      · exact ⟨[], by simpa [Scanner.emit, hempty] using hsame, by simp⟩
      · exact ⟨[⟨.identifier, (v.advance n).lastMatch⟩],
          by simp [Scanner.emit, hempty, hsame], by simpa using isOther_of_kind rfl _⟩
  obtain ⟨more, hmore, hothers⟩ := hunit
  have hall : ∀ t ∈ ⟨.number, w⟩ :: more, isOther t = true :=
    List.forall_mem_cons.mpr ⟨isOther_of_kind rfl w, hothers⟩
  dsimp only
  rw [hmore]
  exact Turn.stepsTo (.other (by simp) hall flag opener) (by simp)

private theorem code?_stepsTo (flag : st'.afterComparator = false)
    (opener : st'.stringOpener = none) :
    Emits (StepsTo st c) (code? (.resume last (c :: cs)) st') := by
  have hkind : ∀ {kind : TokenKind}, otherKinds.contains kind = true →
      ∀ w, StepsTo st c [⟨kind, w⟩] st' :=
    fun h w => stepsTo_other (isOther_of_kind h w) flag opener
  have hname : Moves name := (moves_one _).seq _
  have hflag : Emits (StepsTo st c) ((caseFlag? (.resume last (c :: cs)) st').map (·, st')) := by
    refine .onlyIf _ fun _ => .tokenBefore (moves_one _) fun n hn => ?_
    obtain ⟨rfl, d, ds, hrest, hd⟩ := one_eq_some hn
    obtain ⟨rfl, rfl⟩ := List.cons_eq_cons.mp hrest
    have hletter : c = 'i' ∨ c = 's' := by simpa using hd
    rcases hletter with rfl | rfl
    · exact stepsTo_other rfl flag opener
    · exact stepsTo_other rfl flag opener
  have hproperty : Emits (StepsTo st c) ((property? (.resume last (c :: cs)) st').map (·, st')) :=
    .onlyIf _ fun _ => .tokenBefore hname fun _ _ => hkind rfl _
  have hatRule : Emits (StepsTo st c) (atRule? (.resume last (c :: cs)) st') :=
    .token ((moves_one _).seq _) fun _ _ => stepsTo_other (isOther_of_kind rfl _) flag opener
  have hcolour : Emits (StepsTo st c) ((colour? (.resume last (c :: cs)) st').map (·, st')) :=
    .onlyIf _ fun _ => .token ((moves_one _).seq _) fun _ _ => hkind rfl _
  have hselector : Emits (StepsTo st c) (((Scanner.resume last (c :: cs)).token? .identifier
      (seq (oneOf ['#', '.']) name)).map (·, st')) :=
    .token ((moves_one _).seq _) fun _ _ => hkind rfl _
  have hpseudo : Emits (StepsTo st c) (((Scanner.resume last (c :: cs)).token? .callIdentifier
      (all [char ':', optional (char ':'), name])).map (·, st')) :=
    .token ((moves_one _).seq _) fun _ _ => hkind rfl _
  have hword : Emits (StepsTo st c) (((Scanner.resume last (c :: cs)).token?
      (if st'.inValue then .identifier else .keyword) name).map (·, st')) := by
    refine .token hname fun _ _ => hkind ?_ _
    split <;> rfl
  have hcomparator : Emits (StepsTo st c) (comparator? (.resume last (c :: cs)) st') :=
    .tokenAny (by decide) fun t ht =>
      Turn.stepsTo (.comparator (by simpa [isComparator] using ht) rfl opener) (by simp)
  have hoperator : Emits (StepsTo st c)
      (((Scanner.resume last (c :: cs)).tokenAny? .operator operators).map (·, st')) :=
    .tokenAny (by decide) fun t ht => stepsTo_other (isOther_of_operator t ht) flag opener
  have hblanks : Emits (StepsTo st c)
      (((Scanner.resume last (c :: cs)).token? .whitespace blanks).map (·, st')) :=
    .token ((moves_one _).seq _) fun _ _ => hkind rfl _
  have hquantity : Emits (StepsTo st c) ((quantity? (.resume last (c :: cs))).map (·, st')) :=
    quantity?_stepsTo flag opener
  exact (hflag.either hproperty).orElse (hatRule.orElse
    ((hcolour.either (hselector.either (hpseudo.either (hword.either hquantity)))).orElse
      (hcomparator.orElse (hoperator.either hblanks))))

private theorem scanCode_stepsTo (hc : c ∉ brackets) (hopener : st.stringOpener = none) :
    Emits (StepsTo st c) (some (scanCode (.resume last (c :: cs)) st)) := by
  let past := { st with afterComparator := false }
  have hvalue : Emits (StepsTo st c) ((bareValue? (.resume last (c :: cs)) st).map (·, past)) :=
    .onlyIf _ fun hset => .token ((moves_one _).seq _) fun _ _ =>
      Turn.stepsTo (.value hset rfl hopener) (by simp)
  have hskip : isOther ⟨.text, [c]⟩ = true := by
    have hne : c ≠ '{' ∧ c ≠ '}' ∧ c ≠ '[' ∧ c ≠ ']' := by simpa [brackets] using hc
    simp [isOther, isTransparent, isComparator, brackets, hne]
  have hstay : Turn st [⟨.text, [c]⟩] past :=
    .other (by simp) (List.forall_mem_singleton.mpr hskip) rfl hopener
  have hcode : Emits (StepsTo st c) (code? (.resume last (c :: cs)) past) :=
    code?_stepsTo rfl hopener
  rw [scanCode]
  exact (hvalue.orElse hcode).getD hstay

private theorem scan_stepsTo (last : Text) (c : Char) (cs : Text) (st : State) :
    Emits (StepsTo st c) (some (scan (.resume last (c :: cs)) st)) := by
  by_cases hcomment : st.inBlockComment = true
  · exact scanComment_stepsTo hcomment
  · have hshared := shared_stepsTo last c cs st
    rw [scan, if_neg hcomment]
    cases hread : bracket? (.resume last (c :: cs)) st <|> openComment? (.resume last (c :: cs)) st
        <|> ((Scanner.resume last (c :: cs)).token? .escape escape).map (·, st) with
    | some next =>
      rintro _ ⟨⟩
      exact hshared next hread
    | none =>
      have hc : c ∉ brackets := by
        intro hmem
        obtain ⟨st', hbracket⟩ := bracket?_eq_some (s := .resume last (c :: cs)) rfl hmem st
        rw [hbracket] at hread
        contradiction
      cases hopener : st.stringOpener with
      | some quote => exact scanString_stepsTo hopener
      | none =>
        have hcode : Emits (StepsTo st c) (some (scanCode (.resume last (c :: cs)) st)) :=
          scanCode_stepsTo hc hopener
        exact openString?_stepsTo.getD (hcode _ rfl)

/-- What a turn does to the flag goes with the tokens that it adds. -/
theorem piece_turn (last : Text) (c : Char) (cs : Text) (st : State) :
    Turn st (language.piece last c cs st).1 (language.piece last c cs st).2 :=
  scan_stepsTo last c cs st _ rfl

end Turns

section Flag

variable {st st' : State} {s : Scanner} {t : Token} {tokens more : List Token} {w : Text}

private theorem endsInComparator_of_transparent (ht : isTransparent t = true)
    (tokens : List Token) : endsInComparator (tokens ++ [t]) = endsInComparator tokens := by
  simp [endsInComparator, ht]

private theorem endsInComparator_of_not_transparent (ht : isTransparent t = false)
    (tokens : List Token) : endsInComparator (tokens ++ [t]) = isComparator t := by
  simp [endsInComparator, ht]

private theorem endsInComparator_append_transparent (h : ∀ t ∈ more, isTransparent t = true) :
    endsInComparator (tokens ++ more) = endsInComparator tokens := by
  induction more generalizing tokens with
  | nil => rw [List.append_nil]
  | cons t more ih =>
    obtain ⟨ht, hmore⟩ := List.forall_mem_cons.mp h
    rw [List.append_cons, ih hmore, endsInComparator_of_transparent ht]

private theorem not_transparent_of_comparator (h : isComparator t = true) :
    isTransparent t = false := by
  obtain ⟨kind, text⟩ := t
  cases kind <;> first | rfl | contradiction

private theorem isComparator_iff :
    isComparator t = true ↔ ∃ mark ∈ comparators, t = ⟨.operator, mark⟩ := by
  rw [isComparator, Bool.and_eq_true, beq_iff_eq, List.contains_iff_mem]
  constructor
  · rintro ⟨hkind, hmark⟩
    exact ⟨t.text, hmark, by rw [← hkind]⟩
  · rintro ⟨mark, hmark, rfl⟩
    exact ⟨rfl, hmark⟩

private theorem endsInComparator_iff : endsInComparator tokens = true ↔
    ∃ front mark between, tokens = front ++ ⟨.operator, mark⟩ :: between ∧ mark ∈ comparators ∧
      ∀ t ∈ between, isTransparent t = true := by
  constructor
  · intro h
    obtain ⟨t, hfind, ht⟩ := (Option.any_eq_true _ _).mp h
    obtain ⟨mark, hmark, rfl⟩ := isComparator_iff.mp ht
    obtain ⟨-, behind, before, hsplit, hbehind⟩ := List.find?_eq_some_iff_append.mp hfind
    refine ⟨before.reverse, mark, behind.reverse, ?_, hmark, ?_⟩
    · rw [← List.reverse_inj, hsplit]
      simp
    · intro t ht
      simpa using hbehind t (List.mem_reverse.mp ht)
  · rintro ⟨front, mark, between, rfl, hmark, hbetween⟩
    rw [List.append_cons, endsInComparator_append_transparent hbetween,
      endsInComparator_of_not_transparent rfl]
    exact isComparator_iff.mpr ⟨mark, hmark, rfl⟩

private theorem getLast?_isComparator (h : endsInComparator tokens = true) :
    tokens.getLast?.any isComparator = true ↔ tokens.getLast?.any isTransparent = false := by
  rcases List.eq_nil_or_concat tokens with rfl | ⟨front, t, rfl⟩
  · contradiction
  · rw [List.concat_eq_append] at h ⊢
    rw [List.getLast?_concat, Option.any_some, Option.any_some]
    constructor
    · exact not_transparent_of_comparator
    · intro ht
      rwa [endsInComparator_of_not_transparent ht] at h

/-- The flag tells whether the tokens end in a comparator, and it is not set inside strings. -/
structure FlagTells (tokens : List Token) (st : State) : Prop where
  flag : st.afterComparator = endsInComparator tokens
  string : st.stringOpener ≠ none → st.afterComparator = false

private theorem flagTells_cleared (h : endsInComparator tokens = false)
    (flag : st.afterComparator = false) : FlagTells tokens st :=
  ⟨by rw [flag, h], fun _ => flag⟩

private theorem FlagTells.turn (h : FlagTells tokens st) (hturn : Turn st more st') :
    FlagTells (tokens ++ more) st' := by
  cases hturn with
  | transparent ht flag opener =>
    refine ⟨?_, fun hopen => ?_⟩
    · rw [endsInComparator_of_transparent ht, flag, h.flag]
    · rw [flag]
      exact h.string (opener ▸ hopen)
  | within inside flag =>
    have hcleared : st'.afterComparator = false := by rw [flag, h.string inside]
    exact flagTells_cleared (endsInComparator_of_not_transparent rfl tokens) hcleared
  | opens flag => exact flagTells_cleared (endsInComparator_of_not_transparent rfl tokens) flag
  | value _ flag => exact flagTells_cleared (endsInComparator_of_not_transparent rfl tokens) flag
  | comparator ht flag opener =>
    refine ⟨?_, fun hopen => absurd opener hopen⟩
    rw [flag, endsInComparator_of_not_transparent (not_transparent_of_comparator ht), ht]
  | other hne others flag =>
    have hlast := others _ (List.getLast_mem hne)
    simp only [isOther, Bool.and_eq_true, Bool.not_eq_true'] at hlast
    obtain ⟨⟨htransparent, hcomparator⟩, -⟩ := hlast
    refine flagTells_cleared ?_ flag
    rw [← List.dropLast_concat_getLast hne, ← List.append_assoc,
      endsInComparator_of_not_transparent htransparent, hcomparator]

private theorem flagTells_keeps : language.Keeps FlagTells where
  initial := ⟨rfl, fun _ => rfl⟩
  beginLine := id
  piece h := h.turn (piece_turn _ _ _ _)
  endLine h := ⟨h.flag, h.string⟩

/-- The next turn makes a string of a bare word, which no quote opens. -/
structure EmitsValue (s : Scanner) (st : State) (w : Text) : Prop where
  more : s.isDone = false
  outside : st.stringOpener = none
  emits : (language.turn s st).1.tokens = s.tokens ++ [⟨.string, w⟩]
  unopened : (language.turn s st).2.stringOpener = none

private theorem EmitsValue.flag (h : EmitsValue s st w) : st.afterComparator = true := by
  have hne : s.rest ≠ [] := by simpa [Scanner.isDone] using h.more
  obtain ⟨c, cs, hs⟩ := List.exists_cons_of_ne_nil hne
  obtain ⟨htokens, hstate⟩ := isFaithful.turn_piece hs st
  have hstring : (language.piece s.lastMatch c cs st).1 = [⟨.string, w⟩] :=
    List.append_cancel_left (htokens.symm.trans h.emits)
  have hclosed := hstate ▸ h.unopened
  have hturn := piece_turn s.lastMatch c cs st
  rw [hstring] at hturn
  cases hturn with
  | transparent ht => contradiction
  | within inside => exact absurd h.outside inside
  | opens _ opener => exact absurd hclosed opener
  | value set => exact set
  | comparator ht => contradiction
  | other _ others => exact absurd (others _ List.mem_cons_self) Bool.false_ne_true

end Flag

/-- At every point of a document the flag tells that the tokens before it end in a comparator and
tokens that are brackets, comments or escape sequences. So it is set directly behind a comparator
exactly if the last token is none of these, and bare words become strings only where it is set. -/
theorem comparator_flag_read (earlier : List Text) (line : Text) {s : Scanner} {st : State}
    (h : language.Reaches (language.tokenizer.behind language.initial earlier) line s st) :
    let before := language.tokenizer.tokens earlier ++ s.tokens
    (st.afterComparator = true ↔ ∃ front mark between,
      before = front ++ ⟨.operator, mark⟩ :: between ∧ mark ∈ comparators ∧
        ∀ t ∈ between, isTransparent t = true) ∧
    (st.afterComparator = true → (before.getLast?.any isComparator = true ↔
      before.getLast?.any isTransparent = false)) ∧
    ∀ w, EmitsValue s st w → st.afterComparator = true := by
  intro before
  have htells : FlagTells before st := flagTells_keeps.point isFaithful earlier h
  refine ⟨?_, fun hset => ?_, fun w hvalue => hvalue.flag⟩
  · rw [htells.flag]
    exact endsInComparator_iff
  · exact getLast?_isComparator (htells.flag ▸ hset)

/-- Behind a comparator at the end of a line and a comment in the next one. -/
theorem comparator_flag_read_comment :
    let earlier := ["[a=".toList]
    let s : Scanner := ⟨"/**/".toList, "b]".toList, "*/".toList,
      [⟨.comment, "/*".toList⟩, ⟨.comment, "*/".toList⟩]⟩
    let st : State := { inAttributeSelector := true, afterComparator := true }
    language.Reaches (language.tokenizer.behind language.initial earlier) "/**/b]".toList s st ∧
      EmitsValue s st ['b'] ∧ st.afterComparator = true ∧
      ∃ front mark between,
        language.tokenizer.tokens earlier ++ s.tokens = front ++ ⟨.operator, mark⟩ :: between ∧
          mark ∈ comparators ∧ ∀ t ∈ between, isTransparent t = true := by
  intro earlier s st
  have hopened : language.turn (.ofLine "/**/b]".toList)
      (language.beginLine (language.tokenizer.behind language.initial earlier)) =
        (⟨"/*".toList, "*/b]".toList, "/*".toList, [⟨.comment, "/*".toList⟩]⟩,
          { st with inBlockComment := true }) := by decide +kernel
  have hclosed : language.turn ⟨"/*".toList, "*/b]".toList, "/*".toList,
      [⟨.comment, "/*".toList⟩]⟩ { st with inBlockComment := true } = (s, st) := by decide +kernel
  have hreaches := (Language.Reaches.start.next rfl hopened).next rfl hclosed
  have hvalue : EmitsValue s st ['b'] := by
    constructor <;> decide +kernel
  obtain ⟨hflag, -, hset⟩ := comparator_flag_read earlier "/**/b]".toList hreaches
  exact ⟨hreaches, hvalue, hset ['b'] hvalue, hflag.mp (hset ['b'] hvalue)⟩

/-- A word behind a bracket becomes a string because a comparator stands in front of the bracket. -/
theorem word_behind_bracket_misread :
    let s : Scanner := ⟨"[a=]".toList, "b".toList, "]".toList,
      [⟨.text, ['[']⟩, ⟨.identifier, ['a']⟩, ⟨.operator, ['=']⟩, ⟨.text, [']']⟩]⟩
    let st : State := { afterComparator := true }
    language.Reaches language.initial "[a=]b".toList s st ∧ EmitsValue s st ['b'] ∧
      s.tokens.getLast?.any isComparator = false := by
  intro s st
  have hopened : language.turn (.ofLine "[a=]b".toList) {} =
      (⟨['['], "a=]b".toList, ['['], [⟨.text, ['[']⟩]⟩, { inAttributeSelector := true }) := by
    decide +kernel
  have hname : language.turn ⟨['['], "a=]b".toList, ['['], [⟨.text, ['[']⟩]⟩
      { inAttributeSelector := true } =
        (⟨"[a".toList, "=]b".toList, ['a'], [⟨.text, ['[']⟩, ⟨.identifier, ['a']⟩]⟩,
          { inAttributeSelector := true }) := by decide +kernel
  have hcomparator : language.turn ⟨"[a".toList, "=]b".toList, ['a'],
      [⟨.text, ['[']⟩, ⟨.identifier, ['a']⟩]⟩ { inAttributeSelector := true } =
        (⟨"[a=".toList, "]b".toList, ['='],
          [⟨.text, ['[']⟩, ⟨.identifier, ['a']⟩, ⟨.operator, ['=']⟩]⟩,
          { st with inAttributeSelector := true }) := by decide +kernel
  have hclosed : language.turn ⟨"[a=".toList, "]b".toList, ['='],
      [⟨.text, ['[']⟩, ⟨.identifier, ['a']⟩, ⟨.operator, ['=']⟩]⟩
      { st with inAttributeSelector := true } = (s, st) := by decide +kernel
  have hbehind : language.Reaches language.initial "[a=]b".toList _ _ :=
    (Language.Reaches.start.next rfl hopened).next rfl hname
  refine ⟨(hbehind.next rfl hcomparator).next rfl hclosed, ?_, by decide⟩
  constructor <;> decide +kernel

end Highlight.Css
