import Highlight.Proofs.Html.ClosingTag
import Highlight.Proofs.JavaScript.Strings
import Highlight.Proofs.Language.Html
/-! # Tags and blocks

Where in a tag a line of HTML ends, what name that tag has and whether a block of another language
is open hang together: a block is open only outside of tags and comments, behind the start tag of
its own element, and an attribute value only inside a tag.
-/
namespace Highlight

theorem Text.toLower_cases (c : Char) :
    c.toLower = c ∨ (65 ≤ c.toNat ∧ c.toNat ≤ 90 ∧ c.toLower.toNat = c.toNat + 32) := by
  unfold Char.toLower
  split
  · rename_i hupper
    have hlo : 65 ≤ c.toNat := UInt32.le_iff_toNat_le.mp hupper.1
    have hhi : c.toNat ≤ 90 := UInt32.le_iff_toNat_le.mp hupper.2
    refine .inr ⟨hlo, hhi, ?_⟩
    change (c.val + 32).toNat = c.toNat + 32
    rw [UInt32.toNat_add]
    exact Nat.mod_eq_of_lt (by change c.toNat + 32 < 2 ^ 32; omega)
  · exact .inl rfl

private theorem Text.toLower_toLower (c : Char) : c.toLower.toLower = c.toLower := by
  rcases toLower_cases c with hsame | ⟨hlo, hhi, hlower⟩
  · rw [hsame, hsame]
  · rcases toLower_cases c.toLower with hsame | ⟨hlo', hhi', -⟩
    · exact hsame
    · omega

private theorem Text.lowercase_lowercase (t : Text) : lowercase (lowercase t) = lowercase t := by
  unfold lowercase
  rw [List.map_map]
  exact List.map_congr_left fun c _ => toLower_toLower c

private theorem Text.lowercase_ne_nil {t : Text} (h : t ≠ []) : lowercase t ≠ [] := by
  simpa [lowercase] using h

namespace Css

/-- The flag of an at-rule is for one line alone. -/
def State.BetweenLines (st : State) : Prop := st.inAtRule = false

private theorem tokenizeLine_betweenLines (line : Text) (st : State) :
    (language.tokenizeLine line st).outbound.BetweenLines := rfl

end Css

namespace Html

open Lexeme Scanner

namespace Embedded

/-- The state of a block is one that its language has between two lines. -/
def BetweenLines : Embedded → Prop
  | .javaScript st => st.BetweenLines
  | .css st => st.BetweenLines

variable {block : Embedded}

private theorem tokenize_betweenLines (h : block.BetweenLines) (part : Text) :
    (block.tokenize part).2.BetweenLines := by
  cases block with
  | javaScript st => exact JavaScript.tokenizeLine_betweenLines h part
  | css st => exact Css.tokenizeLine_betweenLines part st

theorem tokenize_tagName (block : Embedded) (part : Text) :
    (block.tokenize part).2.tagName = block.tagName := by
  cases block <;> rfl

private theorem forTag?_eq_some {name : Text} (h : forTag? name = some block) :
    block.tagName = name ∧ block.BetweenLines := by
  rw [forTag?] at h
  split at h
  · rename_i hname
    obtain rfl := Option.some.inj h
    exact ⟨hname.symm, JavaScript.State.betweenLines_initial⟩
  · split at h
    · rename_i hname
      obtain rfl := Option.some.inj h
      exact ⟨hname.symm, rfl⟩
    · contradiction

end Embedded

namespace State

/-- Inside a block the state is that behind the start tag of its element. -/
structure Encloses (st : State) (block : Embedded) : Prop where
  inTag : st.inTag = false
  inBlockComment : st.inBlockComment = false
  closingTag : st.closingTag = false
  tagName : st.tagName = some block.tagName
  block : block.BetweenLines

structure Coherent (st : State) : Prop where
  block : ∀ block ∈ st.embedded, st.Encloses block
  comment : st.inBlockComment = true → st.inTag = false
  value : st.inAttributeValue = true → st.inTag = true
  opener : ∀ quote ∈ st.valueOpener, isQuote quote = true ∧ st.inAttributeValue = true
  named : st.inTag = true → ∃ name ∈ st.tagName, name ≠ []
  lowercase : ∀ name ∈ st.tagName, Text.lowercase name = name

/-- A coherent state in which only quoted attribute values are open. -/
structure BetweenLines (st : State) : Prop extends st.Coherent where
  quoted : st.inAttributeValue = true → st.valueOpener ≠ none

variable {st : State}

private theorem betweenLines_initial : BetweenLines {} := by
  refine ⟨⟨?_, ?_, ?_, ?_, ?_, ?_⟩, ?_⟩ <;> simp

private theorem Coherent.closeTag (h : st.Coherent) (hblock : st.embedded = none)
    (hcomment : st.inBlockComment = false) : st.closeTag.Coherent := by
  refine ⟨?_, fun _ => rfl, by simp [State.closeTag], by simp [State.closeTag],
    by simp [State.closeTag], h.lowercase⟩
  intro block hopened
  cases hclosing : st.closingTag with
  | true =>
    rw [State.closeTag, if_pos hclosing, hblock] at hopened
    contradiction
  | false =>
    have hopened : st.tagName.bind Embedded.forTag? = some block := by
      simpa [State.closeTag, hclosing] using hopened
    obtain ⟨name, hname, hfor⟩ := Option.bind_eq_some_iff.mp hopened
    obtain ⟨rfl, hbetween⟩ := Embedded.forTag?_eq_some hfor
    exact ⟨rfl, hcomment, hclosing, hname, hbetween⟩

end State

section Steps

variable {st : State} {s : Scanner}

private theorem endTag_coherent (h : st.Coherent) (hblock : st.embedded = none)
    (hcomment : st.inBlockComment = false) (s : Scanner) :
    Ensures (fun _ => State.Coherent) (endTag? s st) :=
  .map (fun _ => h.closeTag hblock hcomment) _

private theorem scanQuotedValue_coherent (h : st.Coherent) (hblock : st.embedded = none)
    (quote : Char) : (scanQuotedValue quote s st).2.Coherent := by
  rw [scanQuotedValue]
  cases s.tokenChar? .string quote with
  | none => exact h
  | some t =>
    exact ⟨by simp [hblock], h.comment, by simp, by simp, h.named, h.lowercase⟩

private theorem openValue_coherent (h : st.Coherent) (hblock : st.embedded = none)
    (hvalue : st.inAttributeValue = true) (s : Scanner) :
    Ensures (fun _ => State.Coherent) (openValue? s st) := by
  intro next hnext
  obtain ⟨t, ht, rfl⟩ := Option.map_eq_some_iff.mp hnext
  obtain ⟨q, hlast, hq⟩ := lastMatch_of_one ht
  refine ⟨by simp [hblock], h.comment, h.value, ?_, h.named, h.lowercase⟩
  intro quote hquote
  obtain rfl : q = quote := by simpa [hlast] using hquote
  exact ⟨hq, hvalue⟩

private theorem scanBareValue_coherent (h : st.Coherent) (hblock : st.embedded = none)
    (hcomment : st.inBlockComment = false) (hvalue : st.inAttributeValue = true)
    (hopener : st.valueOpener = none) : (scanBareValue s st).2.Coherent := by
  have hblanks : Ensures (fun _ => State.Coherent)
      ((s.token? .whitespace blanks).map (·, { st with inAttributeValue := false })) :=
    .map (fun _ => ⟨by simp [hblock], h.comment, by simp, by simp [hopener], h.named, h.lowercase⟩) _
  have hquote := openValue_coherent h hblock hvalue s
  have hpiece : Ensures (fun _ => State.Coherent) ((s.token? .string bareValue).map (·, st)) :=
    .map (fun _ => h) _
  exact ((endTag_coherent h hblock hcomment s).orElse (hblanks.orElse (hquote.orElse hpiece))).getD h

private theorem assignedAttribute_coherent (h : st.Coherent) (hblock : st.embedded = none)
    (htag : st.inTag = true) (s : Scanner) :
    Ensures (fun _ => State.Coherent) (assignedAttribute? s st) := by
  intro next hnext
  obtain ⟨t, -, rfl⟩ := Option.map_eq_some_iff.mp hnext
  exact ⟨by simp [hblock], h.comment, fun _ => htag,
    fun quote hquote => ⟨(h.opener quote hquote).1, rfl⟩, h.named, h.lowercase⟩

private theorem scanTag_coherent (h : st.Coherent) (hblock : st.embedded = none)
    (hcomment : st.inBlockComment = false) (hvalue : st.inAttributeValue = false)
    (htag : st.inTag = true) : (scanTag s st).2.Coherent := by
  have hassigned := assignedAttribute_coherent h hblock htag s
  have hname : Ensures (fun _ => State.Coherent) ((s.token? .identifier attributeName).map (·, st)) :=
    .map (fun _ => h) _
  have hclosed : Ensures (fun _ => State.Coherent)
      ((s.tokenText? .syntaxSymbol "/>".toList).map (·, { st with inTag := false })) :=
    .map (fun _ => ⟨by simp [hblock], fun _ => rfl, by simp [hvalue], h.opener, by simp,
      h.lowercase⟩) _
  have hblanks : Ensures (fun _ => State.Coherent) ((s.token? .whitespace blanks).map (·, st)) :=
    .map (fun _ => h) _
  have hend := hclosed.orElse ((endTag_coherent h hblock hcomment s).orElse hblanks)
  exact (hassigned.orElse (hname.orElse hend)).getD h

private theorem openTag_coherent (h : st.Coherent) (hblock : st.embedded = none)
    (hcomment : st.inBlockComment = false) (s : Scanner) :
    Ensures (fun _ => State.Coherent) (openTag? s st) := by
  intro next hnext
  obtain ⟨t, ht, rfl⟩ := Option.map_eq_some_iff.mp hnext
  obtain ⟨n, m, -, hahead, -⟩ := tokenBefore?_eq_some ht
  have hname : (t.accept tagName).lastMatch ≠ [] := lastMatch_of_many1 hahead
  refine ⟨by simp [hblock], by simp [hcomment], fun _ => rfl,
    h.opener, fun _ => ⟨_, rfl, Text.lowercase_ne_nil hname⟩, ?_⟩
  intro name hname
  obtain rfl := Option.some.inj hname
  exact Text.lowercase_lowercase _

private theorem scanContent_coherent (h : st.Coherent) (hblock : st.embedded = none)
    (hcomment : st.inBlockComment = false) (htag : st.inTag = false) :
    (scanContent s st).2.Coherent := by
  have hopened : Ensures (fun _ => State.Coherent) (openComment? s st) :=
    .map (fun _ => ⟨by simp [hblock], fun _ => htag, h.value, h.opener, h.named, h.lowercase⟩) _
  have htext : Ensures (fun _ => State.Coherent) ((s.token? .text plainText).map (·, st)) :=
    .map (fun _ => h) _
  exact (hopened.orElse ((openTag_coherent h hblock hcomment s).orElse htext)).getD h

private theorem scanMarkup_coherent (h : st.Coherent) (hblock : st.embedded = none) :
    (scanMarkup s st).2.Coherent := by
  by_cases hcomment : st.inBlockComment = true
  · rw [scanMarkup, if_pos hcomment]
    exact ⟨by simp [hblock], fun _ => h.comment hcomment, h.value, h.opener, h.named, h.lowercase⟩
  rw [scanMarkup, if_neg hcomment]
  have hcomment : st.inBlockComment = false := by simpa using hcomment
  cases s.token? .escape entity with
  | some t => exact h
  | none =>
    by_cases hvalue : st.inAttributeValue = true
    · cases hopener : st.valueOpener with
      | some quote =>
        rw [if_pos hvalue]
        exact scanQuotedValue_coherent h hblock quote
      | none =>
        rw [if_pos hvalue]
        exact scanBareValue_coherent h hblock hcomment hvalue hopener
    · rw [if_neg hvalue]
      have hvalue : st.inAttributeValue = false := by simpa using hvalue
      by_cases htag : st.inTag = true
      · rw [if_pos htag]
        exact scanTag_coherent h hblock hcomment hvalue htag
      · rw [if_neg htag]
        exact scanContent_coherent h hblock hcomment (by simpa using htag)

private theorem scanEmbedded_coherent (h : st.Coherent) {block : Embedded}
    (hblock : st.embedded = some block) (hs : s.rest ≠ []) :
    (scanEmbedded block s st).2.Coherent := by
  have hencloses := h.block block hblock
  have hclosed : State.Coherent { st with embedded := none } :=
    ⟨by simp, h.comment, h.value, h.opener, h.named, h.lowercase⟩
  cases hend : findClosingTag? block.tagName s.rest with
  | none =>
    rw [scanEmbedded_open hend hs]
    refine ⟨?_, h.comment, h.value, h.opener, h.named, h.lowercase⟩
    intro block' hblock'
    obtain rfl := Option.some.inj hblock'
    refine ⟨hencloses.inTag, hencloses.inBlockComment, hencloses.closingTag, ?_,
      Embedded.tokenize_betweenLines hencloses.block s.rest⟩
    rw [Embedded.tokenize_tagName]
    exact hencloses.tagName
  | some n =>
    cases n with
    | zero =>
      rw [scanEmbedded_at hend]
      exact scanMarkup_coherent hclosed rfl
    | succ n =>
      rw [scanEmbedded_before hend]
      exact hclosed

private theorem scan_coherent (h : st.Coherent) (hs : s.rest ≠ []) : (scan s st).2.Coherent := by
  rw [scan]
  cases hblock : st.embedded with
  | none => exact scanMarkup_coherent h hblock
  | some block => exact scanEmbedded_coherent h hblock hs

end Steps

private theorem endLine_betweenLines {st : State} (h : st.Coherent) :
    (endLine st).BetweenLines := by
  cases hopener : st.valueOpener with
  | none =>
    rw [endLine, if_pos (by simp [hopener])]
    refine ⟨⟨?_, h.comment, by simp, by simp [hopener], h.named, h.lowercase⟩, by simp⟩
    intro block hblock
    have hencloses := h.block block hblock
    exact ⟨hencloses.inTag, hencloses.inBlockComment, hencloses.closingTag, hencloses.tagName,
      hencloses.block⟩
  | some quote =>
    rw [endLine, if_neg (by simp [hopener])]
    exact ⟨h, fun _ => by simp [hopener]⟩

theorem tokenizeLine_betweenLines {st : State} (h : st.BetweenLines) (line : Text) :
    (language.tokenizeLine line st).outbound.BetweenLines := by
  apply endLine_betweenLines
  apply isFaithful.lex_invariant (P := fun _ => State.Coherent) _ _ [] line st h.toCoherent
  · intro s st hs h
    exact scan_coherent h hs
  · intro c cs st h
    exact h

theorem behind_betweenLines (lines : List Text) :
    (language.tokenizer.behind language.initial lines).BetweenLines :=
  Tokenizer.behind_invariant (P := State.BetweenLines)
    (fun line _ h => tokenizeLine_betweenLines h line) State.betweenLines_initial lines

/-- Behind any lines the flags of a state hang together. A block is open only outside of tags,
comments and attribute values and behind the start tag of its own element; comments are outside of
tags, attribute values inside and in quotes; and the name of the last tag is in lower case, and not
empty inside the tag. -/
theorem tags_between_lines (lines : List Text) :
    let st := language.tokenizer.behind language.initial lines
    (∀ block ∈ st.embedded, st.inTag = false ∧ st.inBlockComment = false ∧
      st.inAttributeValue = false ∧ st.closingTag = false ∧ st.tagName = some block.tagName) ∧
    (st.inBlockComment = true → st.inTag = false) ∧
    (st.inAttributeValue = true → st.inTag = true ∧
      (st.valueOpener = some Text.doubleQuote ∨ st.valueOpener = some Text.singleQuote)) ∧
    (st.valueOpener.isSome = true → st.inAttributeValue = true) ∧
    (st.inTag = true → ∃ name ∈ st.tagName, name ≠ []) ∧
    (∀ name ∈ st.tagName, Text.lowercase name = name) := by
  intro st
  have h : st.BetweenLines := behind_betweenLines lines
  refine ⟨?_, h.comment, ?_, ?_, h.named, h.lowercase⟩
  · intro block hblock
    have hencloses := h.block block hblock
    have hvalue : st.inAttributeValue = false := by
      rw [Bool.eq_false_iff]
      intro hvalue
      have htag := h.value hvalue
      rw [hencloses.inTag] at htag
      contradiction
    exact ⟨hencloses.inTag, hencloses.inBlockComment, hvalue, hencloses.closingTag,
      hencloses.tagName⟩
  · intro hvalue
    refine ⟨h.value hvalue, ?_⟩
    obtain ⟨quote, hopener⟩ := Option.ne_none_iff_exists'.mp (h.quoted hvalue)
    rw [hopener]
    exact (isQuote_iff.mp (h.opener quote hopener).1).imp (congrArg some) (congrArg some)
  · intro hopener
    obtain ⟨quote, hquote⟩ := Option.isSome_iff_exists.mp hopener
    exact (h.opener quote hquote).2

/-- A style element, a comment behind a tag, and an attribute value that goes on in the next line. -/
theorem tags_between_lines_open :
    let styled := language.tokenizer.behind language.initial ["<STYLE a=b>".toList]
    let commented := language.tokenizer.behind language.initial ["<p> <!-- <b".toList]
    let valued := language.tokenizer.behind language.initial ["<A b='".toList]
    let block : Embedded := .css {}
    (block ∈ styled.embedded ∧ styled.inTag = false ∧ styled.inBlockComment = false ∧
      styled.inAttributeValue = false ∧ styled.closingTag = false ∧
      styled.tagName = some block.tagName) ∧
    (commented.inBlockComment = true ∧ commented.inTag = false) ∧
    (valued.inAttributeValue = true ∧ valued.inTag = true ∧
      (valued.valueOpener = some Text.doubleQuote ∨ valued.valueOpener = some Text.singleQuote)) ∧
    (valued.valueOpener.isSome = true ∧ valued.inAttributeValue = true) ∧
    (valued.inTag = true ∧ ∃ name ∈ valued.tagName, name ≠ []) ∧
    ("a".toList ∈ valued.tagName ∧ Text.lowercase "a".toList = "a".toList) := by
  intro styled commented valued block
  have hblock : block ∈ styled.embedded := by decide +kernel
  have hcomment : commented.inBlockComment = true := by decide +kernel
  have hvalue : valued.inAttributeValue = true := by decide +kernel
  have hopener : valued.valueOpener.isSome = true := by decide +kernel
  have hname : "a".toList ∈ valued.tagName := by decide +kernel
  obtain ⟨hstyled, -⟩ := tags_between_lines ["<STYLE a=b>".toList]
  obtain ⟨-, hcommented, -⟩ := tags_between_lines ["<p> <!-- <b".toList]
  obtain ⟨-, -, hvalued, hopened, hnamed, hlowercase⟩ := tags_between_lines ["<A b='".toList]
  have hinside := hvalued hvalue
  exact ⟨⟨hblock, hstyled block hblock⟩, ⟨hcomment, hcommented hcomment⟩, ⟨hvalue, hinside⟩,
    ⟨hopener, hopened hopener⟩, ⟨hinside.1, hnamed hinside.1⟩, hname, hlowercase _ hname⟩

end Html
end Highlight
