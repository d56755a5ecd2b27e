import Highlight.Proofs.JavaScript.OneToken
import Highlight.Proofs.Lexeme.Word
/-! # Words

Words are looked up in the two lists, unless the last match was a point. The last match is shared by
all steps: strings, comments and templates leave theirs, and a step that fails leaves that of the
step before. But where a word starts it is the token in front of it, so a word is read by its text,
by that token and by what follows it.
-/
namespace Highlight.JavaScript

open Lexeme Pattern Scanner

/-- The kinds of words. -/
def wordKinds : List TokenKind := [.keyword, .valueKeyword, .identifier, .callIdentifier]

/-- The kinds of words that are names. -/
def nameKinds : List TokenKind := [.identifier, .callIdentifier]

/-- An opening parenthesis follows, perhaps behind blanks. -/
def CallAhead (t : Text) : Prop :=
  ∃ gap r, t = gap ++ '(' :: r ∧ ∀ c ∈ gap, Text.isBlank c = true

/-- A token is a whole word, and of the kind that its text and its place give it: behind a point or
not, and in front of a text. -/
structure ReadsWord (token : Token) (point : Prop) (behind : Text) : Prop where
  word : ∃ c cs, token.text = c :: cs ∧ isWordStart c = true ∧ ∀ d ∈ cs, isWordChar d = true
  maximal : behind.Stops isWordChar
  keyword : token.kind = .keyword → token.text ∈ keywords ∧ ¬ point
  valueKeyword : token.kind = .valueKeyword → token.text ∈ valueKeywords ∧ ¬ point
  listed : token.kind ∈ nameKinds → token.text ∈ keywords ∨ token.text ∈ valueKeywords → point
  call_iff : token.kind ∈ nameKinds → (token.kind = .callIdentifier ↔ CallAhead behind)

variable {last rest t : Text} {n : Nat}

/-- What makes a name that of a call. -/
def call : Pattern := seq optionalBlanks (char '(')

private theorem callAhead_iff : (call t).isSome = true ↔ CallAhead t := by
  constructor
  · intro h
    obtain ⟨n, hn⟩ := Option.isSome_iff_exists.mp h
    obtain ⟨k, m, hk, hm, -⟩ := seq_eq_some hn
    obtain rfl : (t.takeWhile Text.isBlank).length = k := Option.some.inj hk
    obtain ⟨-, c, r, hr, hc⟩ := one_eq_some hm
    obtain rfl : c = '(' := by simpa using hc
    refine ⟨t.takeWhile Text.isBlank, r, ?_, List.all_eq_true.mp List.all_takeWhile⟩
    rw [← hr]
    exact (List.prefix_iff_eq_append.mp (List.takeWhile_prefix _)).symm
  · rintro ⟨gap, r, rfl, hgap⟩
    have htake : call.Takes (gap ++ ['(']) r :=
      Takes.seq (takes_many hgap (Text.stops_cons.mpr rfl)) (takes_char '(' r)
    have hsome : call (gap ++ ['('] ++ r) = some _ := htake
    rw [List.append_assoc] at hsome
    exact Option.isSome_iff_exists.mpr ⟨_, hsome⟩

/-- The kind of a word behind a last match and in front of a text. -/
def kindOf (last word behind : Text) : TokenKind :=
  (if last = ['.'] then none else wordKind? word).getD
    (if (call behind).isSome then .callIdentifier else .identifier)

private theorem length_of_identifier (h : identifier t = some n) : (t.take n).length = n := by
  obtain ⟨c, cs, r, rfl, rfl, -⟩ := identifier_eq_some h
  rw [List.take_left]

/-- The three rules for words. -/
def word? (s : Scanner) : Option Scanner :=
  keyword? s <|> s.tokenBefore? .callIdentifier identifier call <|> s.token? .identifier identifier

private theorem plain?_eq (s : Scanner) :
    plain? s = (s.token? .comment lineComment <|> word? s <|> s.token? .number number
      <|> s.tokenAny? .operator operators <|> s.token? .whitespace blanks) := by
  rw [word?]
  change (_ <|> keyword? s <|> s.tokenBefore? .callIdentifier identifier call <|> _) = _
  cases keyword? s with
  | some u => rfl
  | none => cases s.tokenBefore? .callIdentifier identifier call <;> rfl

private theorem word?_eq_map (s : Scanner) :
    word? s = (identifier s.rest).map fun n =>
      (s.advance n).emit (kindOf s.lastMatch (s.rest.take n) (s.rest.drop n)) := by
  cases hn : identifier s.rest with
  | none => simp [word?, keyword?, peek?, tokenBefore?, acceptBefore?, token?, accept?, hn]
  | some n =>
    have hcalled : (s.tokenBefore? .callIdentifier identifier call
        <|> s.token? .identifier identifier) = some ((s.advance n).emit
          (if (call (s.rest.drop n)).isSome then .callIdentifier else .identifier)) := by
      cases hahead : call (s.rest.drop n) with
      | none => simp [tokenBefore?, acceptBefore?, token?, accept?, hn, hahead]
      | some m => simp [tokenBefore?, acceptBefore?, hn, hahead]
    have hword : s.peek? identifier = some (s.rest.take n) := by simp [peek?, hn]
    have hlength : (s.rest.take n).length = n := length_of_identifier hn
    rw [word?, hcalled, keyword?, hword, Option.map_some]
    simp only [kindOf]
    by_cases hpoint : s.lastMatch = ['.']
    · rw [if_pos hpoint, if_pos hpoint]
      rfl
    · rw [if_neg hpoint, if_neg hpoint]
      cases hkind : wordKind? (s.rest.take n) with
      | none => simp [hkind]
      | some kind => simp [hkind, hlength]

private theorem kindOf_cases (last word behind : Text) :
    last ≠ ['.'] ∧ (kindOf last word behind = .keyword ∧ word ∈ keywords ∨
      kindOf last word behind = .valueKeyword ∧ word ∈ valueKeywords) ∨
    (word ∈ keywords ∨ word ∈ valueKeywords → last = ['.']) ∧
      kindOf last word behind ∈ nameKinds ∧
      (kindOf last word behind = .callIdentifier ↔ CallAhead behind) := by
  have hname : ∀ kind, kind = (if (call behind).isSome then .callIdentifier else .identifier) →
      kind ∈ nameKinds ∧ (kind = TokenKind.callIdentifier ↔ CallAhead behind) := by
    rintro kind rfl
    rw [← callAhead_iff]
    cases (call behind).isSome <;> decide
  by_cases hpoint : last = ['.']
  · refine .inr ⟨fun _ => hpoint, hname _ ?_⟩
    rw [kindOf, if_pos hpoint]
    rfl
  · cases hkind : wordKind? word with
    | none =>
      have hunlisted := not_listed_of_wordKind?_eq_none hkind
      refine .inr ⟨fun hlisted => ?_, hname _ ?_⟩
      · exact absurd hlisted (not_or.mpr hunlisted)
      · rw [kindOf, if_neg hpoint, hkind]
        rfl
    | some kind =>
      have hkindOf : kindOf last word behind = kind := by
        rw [kindOf, if_neg hpoint, hkind]
        rfl
      rw [hkindOf]
      exact .inl ⟨hpoint, wordKind?_eq_some hkind⟩

private theorem readsWord_of_identifier (h : identifier rest = some n) (last : Text) :
    ReadsWord ⟨kindOf last (rest.take n) (rest.drop n), rest.take n⟩ (last = ['.'])
      (rest.drop n) := by
  obtain ⟨c, cs, r, rfl, rfl, hc, hcs, hr⟩ := identifier_eq_some h
  rw [List.take_left, List.drop_left]
  have hword : ∃ d ds, c :: cs = d :: ds ∧ isWordStart d = true ∧ ∀ e ∈ ds, isWordChar e = true :=
    ⟨c, cs, rfl, hc, hcs⟩
  rcases kindOf_cases last (c :: cs) r with
    ⟨hpoint, ⟨hkind, hlisted⟩ | ⟨hkind, hlisted⟩⟩ | ⟨hlisted, hkind, hcall⟩
  · rw [hkind]
    exact ⟨hword, hr, fun _ => ⟨hlisted, hpoint⟩, nofun, nofun, nofun⟩
  · rw [hkind]
    exact ⟨hword, hr, nofun, fun _ => ⟨hlisted, hpoint⟩, nofun, nofun⟩
  · refine ⟨hword, hr, ?_, ?_, fun _ => hlisted, fun _ => hcall⟩
    · intro (hkeyword : kindOf last (c :: cs) r = .keyword)
      rw [hkeyword] at hkind
      contradiction
    · intro (hkeyword : kindOf last (c :: cs) r = .valueKeyword)
      rw [hkeyword] at hkind
      contradiction

/-- What is said of a token behind a last match and at the front of the rest of a line, of words
alone. -/
def WordAt (last rest : Text) (token : Token) : Prop :=
  token.kind ∈ wordKinds → ReadsWord token (last = ['.']) (rest.drop token.text.length)

private theorem wordAt_of_notMem {kind : TokenKind} (h : kind ∉ wordKinds) (last rest text : Text) :
    WordAt last rest ⟨kind, text⟩ := fun hkind => absurd hkind h

private theorem word_emitsOne (last rest : Text) (st : State) :
    EmitsOne (WordAt last rest) ((word? (.resume last rest)).map (·, st)) := by
  intro next hnext
  rw [word?_eq_map] at hnext
  obtain ⟨s, hs, rfl⟩ := Option.map_eq_some_iff.mp hnext
  obtain ⟨n, hn, rfl⟩ := Option.map_eq_some_iff.mp hs
  have hreads : ReadsWord ⟨kindOf last (rest.take n) (rest.drop n), rest.take n⟩ (last = ['.'])
      (rest.drop (rest.take n).length) := by
    have hlength : (rest.take n).length = n := length_of_identifier hn
    rw [hlength]
    exact readsWord_of_identifier hn last
  exact EmitsOne.emit rfl (fun _ => hreads) st _ rfl

private theorem plain_wordAt (last rest : Text) (st : State) :
    EmitsOne (WordAt last rest) ((plain? (.resume last rest)).map (·, st)) := by
  have hother : ∀ (kind : TokenKind) {g : Scanner → Option Scanner}, kind ∉ wordKinds →
      Consuming g → EmitsOne (WordAt last rest)
        (((g (.resume last rest)).map (·.emit kind)).map (·, st)) := fun kind _ hkind hg =>
    .of_kind hg (wordAt_of_notMem hkind last rest) last rest fun _ => st
  have hcomment := hother .comment (by decide) (consuming_accept lineComment)
  have hnumber := hother .number (by decide) (consuming_accept number)
  have hoperator := hother .operator (by decide) (consuming_acceptAny operators)
  have hblanks := hother .whitespace (by decide) (consuming_accept blanks)
  have hsymbol := hnumber.either _ (hoperator.either _ hblanks)
  rw [plain?_eq]
  exact hcomment.either _ ((word_emitsOne last rest st).either _ hsymbol)

private theorem scan_wordAt (last rest : Text) (st : State) :
    EmitsOne (WordAt last rest) (some (scan (.resume last rest) st)) := by
  apply scan_emitsOne_of_plain
  · intro kind hkind text
    apply wordAt_of_notMem
    intro hword
    revert hkind hword
    cases kind <;> decide
  · exact plain_wordAt last rest st

/-- In any line and behind any state, a word is whole, and its kind is that of the list it is in,
unless the token in front of it is a point; all other words are names, and those of calls exactly
where an opening parenthesis follows. -/
theorem words_read (inbound : State) (line : Text) {front back : List Token} {token : Token}
    (h : (language.tokenizeLine line inbound).tokens = front ++ token :: back)
    (hkind : token.kind ∈ wordKinds) :
    ReadsWord token (front.getLast?.map Token.text = some ['.']) (Token.spell back) := by
  have hreads := isFaithful.lex_token scan_wordAt
    (fun last _ _ => wordAt_of_notMem (by decide) last _ _) h hkind
  have hspell : Token.spell front ++ (token.text ++ Token.spell back) = line := by
    rw [← (isFaithful.partitions line inbound).spells, h, Token.spell_append, Token.spell_cons]
  have hrest : (line.drop (Token.spell front).length).drop token.text.length =
      Token.spell back := by
    rw [← hspell, List.drop_left, List.drop_left]
  have hpoint : (front.getLast?.elim [] Token.text = ['.']) =
      (front.getLast?.map Token.text = some ['.']) := by
    cases front.getLast? <;> simp
  rwa [hrest, hpoint] at hreads

/-- Behind a template that an earlier line opened. In its text stands a point, and in its
placeholder one word twice: a keyword first, and behind a point the name of a call. -/
theorem words_read_new :
    let inbound := language.tokenizer.behind language.initial ["\x60".toList]
    let line := ".$\x7bnew a.new (this".toList
    let front : List Token := [⟨.string, ['.']⟩, ⟨.string, placeholderOpen⟩]
    let between : List Token := [⟨.whitespace, [' ']⟩, ⟨.identifier, ['a']⟩, ⟨.text, ['.']⟩]
    let back : List Token := [⟨.whitespace, [' ']⟩, ⟨.text, ['(']⟩, ⟨.valueKeyword, "this".toList⟩]
    let keyword : Token := ⟨.keyword, "new".toList⟩
    let name : Token := ⟨.callIdentifier, "new".toList⟩
    (language.tokenizeLine line inbound).tokens = front ++ keyword :: (between ++ name :: back) ∧
      keyword.kind ∈ wordKinds ∧ name.kind ∈ wordKinds ∧
      ReadsWord keyword (front.getLast?.map Token.text = some ['.'])
        (Token.spell (between ++ name :: back)) ∧
      ReadsWord name ((front ++ keyword :: between).getLast?.map Token.text = some ['.'])
        (Token.spell back) := by
  intro inbound line front between back keyword name
  have htokens : (language.tokenizeLine line inbound).tokens =
      front ++ keyword :: (between ++ name :: back) := by decide +kernel
  have hkeyword : keyword.kind ∈ wordKinds := by decide
  have hname : name.kind ∈ wordKinds := by decide
  have hlater : (language.tokenizeLine line inbound).tokens =
      (front ++ keyword :: between) ++ name :: back := by
    rw [htokens]
    rfl
  exact ⟨htokens, hkeyword, hname, words_read inbound line htokens hkeyword,
    words_read inbound line hlater hname⟩

end Highlight.JavaScript
