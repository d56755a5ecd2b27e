import Highlight.Proofs.JavaScript.OneToken
/-! # Operators

Operators are tried in the order of their list, and the first that is there is taken. That is the
longest one wherever longer operators stand before those that they begin with. They do, but for the
two that begin with two stars: the single star stands before both.
-/
namespace Highlight.JavaScript

open Lexeme Scanner

def star : Text := ['*']

def twoStars : Text := ['*', '*']

/-- The longest text of a list that another text starts with. -/
structure IsLongest (ts : List Text) (t text : Text) : Prop where
  listed : t ∈ ts
  starts : t <+: text
  longest : ∀ u ∈ ts, u <+: text → u.length ≤ t.length

/-- The operator is one that the text starts with, and the longest except where two stars stand,
which are read one by one. -/
structure ReadsOperator (t text : Text) : Prop where
  listed : t ∈ operators
  starts : t <+: text
  longest_iff : IsLongest operators t text ↔ ¬ twoStars <+: text
  apart : twoStars <+: text → t = star

private theorem operators_ordered :
    operators.Pairwise fun t u => t <+: u → t = star ∧ twoStars <+: u := by decide

variable {s u : Scanner}

private theorem acceptAny?_twoStars (h : twoStars <+: s.rest) :
    s.acceptAny? operators = some (s.advance 1) := by
  obtain ⟨r, hr⟩ := h
  obtain ⟨consumed, rest, last, tokens⟩ := s
  obtain rfl : twoStars ++ r = rest := hr
  rfl

private theorem twoStars_of_longer {earlier later : List Text} {t w text : Text}
    (hoperators : operators = earlier ++ t :: later) (hw : w ∈ later) (ht : t <+: text)
    (hstarts : w <+: text) (hlonger : t.length < w.length) : twoStars <+: text := by
  have hordered := operators_ordered
  rw [hoperators] at hordered
  have hlater := (List.pairwise_cons.mp (List.pairwise_append.mp hordered).2.1).1
  have hbegins : t <+: w := List.prefix_of_prefix_length_le ht hstarts (Nat.le_of_lt hlonger)
  exact (hlater w hw hbegins).2.trans hstarts

private theorem acceptAny?_reads (h : s.acceptAny? operators = some u) :
    ReadsOperator u.lastMatch s.rest := by
  obtain ⟨earlier, t, later, hoperators, hstarts, hu, hearlier⟩ := acceptAny?_eq_some h
  have hlast : u.lastMatch = t := by
    rw [hu]
    exact (List.prefix_iff_eq_take.mp hstarts).symm
  have hlisted : t ∈ operators := by simp [hoperators]
  have hapart : twoStars <+: s.rest → t = star := by
    intro hstars
    have hone : s.advance 1 = u := Option.some.inj ((acceptAny?_twoStars hstars).symm.trans h)
    obtain ⟨r, hr⟩ := hstars
    rw [← hlast, ← hone, advance, ← hr]
    rfl
  rw [hlast]
  refine ⟨hlisted, hstarts, ⟨?_, ?_⟩, hapart⟩
  · intro hlongest hstars
    have hlength := hlongest.longest twoStars (by decide) hstars
    rw [hapart hstars] at hlength
    contradiction
  · intro hstars
    refine ⟨hlisted, hstarts, ?_⟩
    intro w hw hbegins
    rw [hoperators] at hw
    rcases List.mem_append.mp hw with hbefore | hfrom
    · rw [hearlier w hbefore hbegins]
      exact Nat.zero_le _
    · rcases List.mem_cons.mp hfrom with rfl | hlater
      · exact Nat.le_refl _
      · apply Nat.le_of_not_lt
        intro hlonger
        exact hstars (twoStars_of_longer hoperators hlater hstarts hbegins hlonger)

section Steps

variable {last rest : Text}

/-- What is said of a token in front of the rest of a line, of operators alone. -/
def OperatorAt (rest : Text) (token : Token) : Prop :=
  token.kind = .operator → ReadsOperator token.text rest

private theorem operatorAt_of_ne {kind : TokenKind} (h : kind ≠ .operator) (rest text : Text) :
    OperatorAt rest ⟨kind, text⟩ := fun hkind => absurd hkind h

private theorem emitsOne_of_ne {α : Type} (kind : TokenKind) (h : kind ≠ .operator)
    {g : Scanner → Option Scanner} (hg : Consuming g) (last rest : Text) (k : Scanner → α) :
    EmitsOne (OperatorAt rest)
      (((g (.resume last rest)).map (·.emit kind)).map fun s => (s, k s)) :=
  .of_kind hg (operatorAt_of_ne h rest) last rest k

private theorem operator_emitsOne (last rest : Text) (st : State) : EmitsOne (OperatorAt rest)
    (((Scanner.resume last rest).tokenAny? .operator operators).map (·, st)) := by
  intro next hnext
  obtain ⟨s, hs, rfl⟩ := Option.map_eq_some_iff.mp hnext
  obtain ⟨u, hu, rfl⟩ := Option.map_eq_some_iff.mp hs
  have hreads := acceptAny?_reads hu
  obtain ⟨-, t, -, -, -, rfl, -⟩ := acceptAny?_eq_some hu
  exact EmitsOne.emit rfl (fun _ => hreads) st _ rfl

private theorem wordKind?_ne_operator {word : Text} {kind : TokenKind}
    (h : wordKind? word = some kind) : kind ≠ .operator := by
  rcases wordKind?_eq_some h with ⟨rfl, -⟩ | ⟨rfl, -⟩ <;> decide

private theorem keyword_emitsOne (last rest : Text) (st : State) :
    EmitsOne (OperatorAt rest) ((keyword? (.resume last rest)).map (·, st)) := by
  rw [keyword?]
  split
  · exact .none _
  · intro next hnext
    obtain ⟨s, hs, rfl⟩ := Option.map_eq_some_iff.mp hnext
    obtain ⟨word, -, hs⟩ := Option.bind_eq_some_iff.mp hs
    obtain ⟨kind, hkind, hs⟩ := Option.bind_eq_some_iff.mp hs
    obtain rfl := Option.some.inj hs
    exact EmitsOne.emit rfl (operatorAt_of_ne (wordKind?_ne_operator hkind) _ _) st _ rfl

private theorem plain_emitsOne (last rest : Text) (st : State) :
    EmitsOne (OperatorAt rest) ((plain? (.resume last rest)).map (·, st)) := by
  have hcomment := emitsOne_of_ne .comment (by decide) (consuming_accept lineComment) last rest
    fun _ => st
  have hcall := emitsOne_of_ne .callIdentifier (by decide)
    (consuming_acceptBefore identifier (.seq optionalBlanks (.char '('))) last rest fun _ => st
  have hidentifier := emitsOne_of_ne .identifier (by decide) (consuming_accept identifier) last rest
    fun _ => st
  have hnumber := emitsOne_of_ne .number (by decide) (consuming_accept number) last rest fun _ => st
  have hoperator := operator_emitsOne last rest st
  have hblanks := emitsOne_of_ne .whitespace (by decide) (consuming_accept blanks) last rest
    fun _ => st
  have hsymbol := hnumber.either _ (hoperator.either _ hblanks)
  have hname := hcall.either _ (hidentifier.either _ hsymbol)
  exact hcomment.either _ ((keyword_emitsOne last rest st).either _ hname)

private theorem scan_emitsOne (last rest : Text) (st : State) :
    EmitsOne (OperatorAt rest) (some (scan (.resume last rest) st)) := by
  apply scan_emitsOne_of_plain
  · intro kind hkind text
    apply operatorAt_of_ne
    rintro rfl
    contradiction
  · exact plain_emitsOne last rest st

end Steps

/-- In any line and behind any state, an operator is the longest one that stands where it begins,
unless two stars stand there, of which it is the first. -/
theorem operators_read (inbound : State) (line : Text) {front back : List Token} {t : Text}
    (h : (language.tokenizeLine line inbound).tokens = front ++ ⟨.operator, t⟩ :: back) :
    ReadsOperator t (line.drop (Token.spell front).length) :=
  isFaithful.lex_token scan_emitsOne (fun _ _ _ => operatorAt_of_ne (by decide) _ _) h rfl

/-- Behind a placeholder of a template that an earlier line opened, three operators in a row of
which each begins the longer ones. -/
theorem operators_read_shift :
    let inbound := language.tokenizer.behind language.initial ["\x60$\x7b".toList]
    let line := ">>>=>>>>".toList
    let front : List Token := [⟨.operator, ">>>=".toList⟩]
    (language.tokenizeLine line inbound).tokens =
        front ++ ⟨.operator, ">>>".toList⟩ :: [⟨.operator, ">".toList⟩] ∧
      ReadsOperator ">>>".toList ">>>>".toList := by
  intro inbound line front
  have htokens : (language.tokenizeLine line inbound).tokens =
      front ++ ⟨.operator, ">>>".toList⟩ :: [⟨.operator, ">".toList⟩] := by decide +kernel
  exact ⟨htokens, operators_read inbound line htokens⟩

/-- Two stars are an operator and a longer one than the star, but they are read one by one. -/
theorem twoStars_misread :
    let line := "a**b".toList
    let name : Token := ⟨.identifier, ['a']⟩
    (language.tokenizeLine line language.initial).tokens =
        [name] ++ ⟨.operator, star⟩ :: [⟨.operator, star⟩, ⟨.identifier, ['b']⟩] ∧
      twoStars ∈ operators ∧ twoStars <+: line.drop (Token.spell [name]).length ∧
      ¬ IsLongest operators star (line.drop (Token.spell [name]).length) := by
  intro line name
  have hstars : twoStars <+: line.drop (Token.spell [name]).length := by decide
  have hlisted : twoStars ∈ operators := by decide
  refine ⟨by decide +kernel, hlisted, hstars, ?_⟩
  intro hlongest
  exact absurd (hlongest.longest twoStars hlisted hstars) (by decide)

end Highlight.JavaScript
