import Highlight.Proofs.Html.Tags
/-! # Blocks read as their own language

Until its closing tag a block is read as its language reads it on its own: the tokens are the same,
and the block holds the state that the language hands on. The exception is an empty line behind a
newline escape: the language forgets the escape there, and closes the string that it held open,
while the block stays as it is.
-/
namespace Highlight.Html

namespace Embedded

/-- What the language of the block reads on its own, from the state of the block. -/
def alone : Embedded → List Text → List (LineTokens Embedded)
  | .javaScript st, lines => (JavaScript.language.tokenizer.thread st lines).map fun result =>
    ⟨result.tokens, .javaScript result.outbound⟩
  | .css st, lines => (Css.language.tokenizer.thread st lines).map fun result =>
    ⟨result.tokens, .css result.outbound⟩

/-- The block behind some lines that its language reads on its own. -/
def behind : Embedded → List Text → Embedded
  | .javaScript st, lines => .javaScript (JavaScript.language.tokenizer.behind st lines)
  | .css st, lines => .css (Css.language.tokenizer.behind st lines)

/-- The line before ended in a backslash inside a string. -/
def escapesNewline : Embedded → Bool
  | .javaScript st => st.newlineEscape
  | .css _ => false

/-- No line that is empty stands behind a newline escape. -/
def Unbroken (block : Embedded) (lines : List Text) : Prop :=
  ∀ front rest, lines = front ++ [] :: rest → (block.behind front).escapesNewline = false

variable {block : Embedded}

private theorem alone_nil (block : Embedded) : block.alone [] = [] := by
  cases block <;> rfl

private theorem alone_cons (block : Embedded) (line : Text) (lines : List Text) :
    block.alone (line :: lines) =
      ⟨(block.tokenize line).1, (block.tokenize line).2⟩ :: (block.tokenize line).2.alone lines := by
  cases block <;> rfl

private theorem behind_nil (block : Embedded) : block.behind [] = block := by
  cases block <;> rfl

private theorem behind_cons (block : Embedded) (line : Text) (lines : List Text) :
    block.behind (line :: lines) = (block.tokenize line).2.behind lines := by
  cases block <;> rfl

private theorem unbroken_nil (block : Embedded) : block.Unbroken [] := by
  intro front rest hlines
  simp at hlines

private theorem unbroken_cons {line : Text} {lines : List Text} :
    block.Unbroken (line :: lines) ↔
      (line = [] → block.escapesNewline = false) ∧ (block.tokenize line).2.Unbroken lines := by
  constructor
  · intro h
    constructor
    · rintro rfl
      have hfirst := h [] lines rfl
      rwa [behind_nil] at hfirst
    · intro front rest hlines
      have hlater := h (line :: front) rest (by rw [hlines, List.cons_append])
      rwa [behind_cons] at hlater
  · rintro ⟨hfirst, hlater⟩ front rest hlines
    cases front with
    | nil =>
      rw [behind_nil]
      exact hfirst (List.head_eq_of_cons_eq hlines)
    | cons first front =>
      obtain ⟨rfl, hrest⟩ := List.cons_eq_cons.mp hlines
      rw [behind_cons]
      exact hlater front rest hrest

theorem tokenize_nil_tokens (block : Embedded) : (block.tokenize []).1 = [] := by
  cases block with
  | javaScript st => exact congrArg LineTokens.tokens (JavaScript.language.tokenizeLine_nil st)
  | css st => exact congrArg LineTokens.tokens (Css.language.tokenizeLine_nil st)

private theorem tokenize_nil_eq_iff (h : block.BetweenLines) :
    (block.tokenize []).2 = block ↔ block.escapesNewline = false := by
  cases block with
  | javaScript st =>
    have hsame := JavaScript.tokenizeLine_nil_eq_iff h
    simpa [tokenize, escapesNewline] using hsame
  | css st =>
    have hsame : (Css.language.tokenizeLine [] st).outbound = st := by
      rw [Css.language.tokenizeLine_nil]
      change { st with inAtRule := false } = st
      rw [← show st.inAtRule = false from h]
    simpa [tokenize, escapesNewline] using hsame

end Embedded

/-- A reading of the block, in a state that is otherwise as it was. -/
def State.around (st : State) (result : LineTokens Embedded) : LineTokens State :=
  ⟨result.tokens, { st with embedded := some result.outbound }⟩

variable {st : State} {block : Embedded}

private theorem State.BetweenLines.endLine_eq (h : st.BetweenLines) : endLine st = st := by
  cases hopener : st.valueOpener with
  | none =>
    have hvalue : st.inAttributeValue = false := by
      rw [Bool.eq_false_iff]
      intro hvalue
      exact h.quoted hvalue hopener
    rw [endLine, if_pos (by simp [hopener]), ← hvalue]
  | some quote => rw [endLine, if_neg (by simp [hopener])]

private theorem endLine_embedded (st : State) (embedded : Option Embedded) :
    endLine { st with embedded } = { endLine st with embedded } := by
  unfold endLine
  split <;> rfl

private theorem tokenizeLine_nil (h : st.BetweenLines) :
    language.tokenizeLine [] st = ⟨[], st⟩ := by
  rw [language.tokenizeLine_nil]
  exact congrArg (LineTokens.mk []) h.endLine_eq

private theorem tokenizeLine_open (h : st.BetweenLines) (hblock : st.embedded = some block)
    {line : Text} (hline : line ≠ []) (hopen : ¬ Closes block.tagName line) :
    language.tokenizeLine line st =
      st.around ⟨(block.tokenize line).1, (block.tokenize line).2⟩ := by
  let read := block.tokenize line
  have hscan : language.scan (.ofLine line) (language.beginLine st) =
      (⟨line, [], line, read.1⟩, { st with embedded := some read.2 }) := by
    change scan (.ofLine line) st = _
    rw [scan, hblock]
    change scanEmbedded block (.ofLine line) st = _
    have hall : (Scanner.ofLine line).rest = line ++ [] := (List.append_nil line).symm
    rw [scanEmbedded_open (findClosingTag?_eq_none.mpr hopen) hline]
    change ((Scanner.ofLine line).embed line.utf8Size read.1, _) = _
    rw [Scanner.embed_eq hall]
    rfl
  have hend : endLine { st with embedded := some read.2 } = { st with embedded := some read.2 } := by
    rw [endLine_embedded, h.endLine_eq]
  rw [Language.tokenizeLine_of_scan hline hscan rfl]
  exact congrArg (LineTokens.mk read.1) hend

private theorem tokenizeLine_nil_eq_around (h : st.BetweenLines)
    (hblock : st.embedded = some block) :
    language.tokenizeLine [] st = st.around ⟨(block.tokenize []).1, (block.tokenize []).2⟩ ↔
      block.escapesNewline = false := by
  have hbetween : block.BetweenLines := (h.block block hblock).block
  rw [tokenizeLine_nil h, Embedded.tokenize_nil_tokens, ← Embedded.tokenize_nil_eq_iff hbetween]
  constructor
  · intro hsame
    have hembedded := congrArg (fun result => result.outbound.embedded) hsame
    exact (Option.some.inj (hblock.symm.trans hembedded)).symm
  · intro hsame
    rw [hsame, State.around, ← hblock]

/-- The two readings agree up to the first line that is empty behind a newline escape, and part
there. -/
theorem thread_eq_alone_iff (h : st.BetweenLines) (hblock : st.embedded = some block)
    {lines : List Text} (hopen : ∀ line ∈ lines, ¬ Closes block.tagName line) :
    language.tokenizer.thread st lines = (block.alone lines).map st.around ↔
      block.Unbroken lines := by
  induction lines generalizing st block with
  | nil => simp [Embedded.alone_nil, Embedded.unbroken_nil, Tokenizer.thread]
  | cons line lines ih =>
    have hlater : ∀ later ∈ lines, ¬ Closes block.tagName later :=
      fun later hmem => hopen later (List.mem_cons_of_mem line hmem)
    have hthread : language.tokenizer.thread st (line :: lines) =
        language.tokenizeLine line st ::
          language.tokenizer.thread (language.tokenizeLine line st).outbound lines := rfl
    rw [hthread, Embedded.alone_cons, List.map_cons, List.cons_eq_cons, Embedded.unbroken_cons]
    by_cases hline : line = []
    · subst hline
      rw [tokenizeLine_nil_eq_around h hblock, forall_prop_of_true rfl]
      apply and_congr_right
      intro hescape
      rw [(Embedded.tokenize_nil_eq_iff (h.block block hblock).block).mpr hescape,
        tokenizeLine_nil h]
      exact ih h hblock hlater
    · have hread := tokenizeLine_open h hblock hline (hopen line List.mem_cons_self)
      have hnext := tokenizeLine_betweenLines h line
      rw [hread] at hnext
      have hrest := ih hnext rfl (by rwa [Embedded.tokenize_tagName])
      rw [hread]
      exact and_congr (iff_of_true rfl (absurd · hline)) hrest

/-- Behind any lines that leave a block open, lines without its closing tag are read as the language
of the block reads them on its own, each with the same tokens and the same state in the block and
nothing else changed, exactly if none of them is empty behind a newline escape. -/
theorem block_reads_alone (earlier lines : List Text) {block : Embedded}
    (hblock : (language.tokenizer.behind language.initial earlier).embedded = some block)
    (hopen : ∀ line ∈ lines, ¬ Closes block.tagName line) :
    let st := language.tokenizer.behind language.initial earlier
    language.tokenizer.thread st lines = (block.alone lines).map st.around ↔
      block.Unbroken lines :=
  thread_eq_alone_iff (behind_betweenLines earlier) hblock hopen

/-- A string that goes on over two lines and is closed in the second one, and an empty line. -/
theorem block_reads_alone_escaped :
    let st := language.tokenizer.behind language.initial ["<script>'a\x5c".toList]
    let lines : List Text := ["b\x5c".toList, "</b>'".toList, []]
    let block : Embedded := .javaScript
      { current := { opener := some Text.singleQuote }, newlineEscape := true }
    st.embedded = some block ∧ (∀ line ∈ lines, ¬ Closes block.tagName line) ∧
      block.Unbroken lines ∧
      language.tokenizer.thread st lines = (block.alone lines).map st.around := by
  intro st lines block
  have hblock : st.embedded = some block := by decide +kernel
  have hnone : ∀ line ∈ lines, findClosingTag? block.tagName line = none := by decide +kernel
  have hopen : ∀ line ∈ lines, ¬ Closes block.tagName line :=
    fun line hmem => findClosingTag?_eq_none.mp (hnone line hmem)
  have hunbroken : block.Unbroken lines := by
    refine Embedded.unbroken_cons.mpr ⟨by decide, Embedded.unbroken_cons.mpr ⟨by decide,
      Embedded.unbroken_cons.mpr ⟨fun _ => by decide +kernel, Embedded.unbroken_nil _⟩⟩⟩
  exact ⟨hblock, hopen, hunbroken,
    (block_reads_alone ["<script>'a\x5c".toList] lines hblock hopen).mpr hunbroken⟩

/-- An empty line ends a string that the line before it continued, but not inside a block, which
reads the line behind as text of the string. -/
theorem block_keeps_string_open :
    let st := language.tokenizer.behind language.initial ["<script>'a\x5c".toList]
    let lines : List Text := [[], "b".toList]
    let block : Embedded := .javaScript
      { current := { opener := some Text.singleQuote }, newlineEscape := true }
    st.embedded = some block ∧ (∀ line ∈ lines, ¬ Closes block.tagName line) ∧
      (language.tokenizer.thread st lines).map (·.tokens) = [[], [⟨.string, ['b']⟩]] ∧
      (block.alone lines).map (·.tokens) = [[], [⟨.identifier, ['b']⟩]] := by
  intro st lines block
  have hnone : ∀ line ∈ lines, findClosingTag? block.tagName line = none := by decide +kernel
  exact ⟨by decide +kernel, fun line hmem => findClosingTag?_eq_none.mp (hnone line hmem),
    by decide +kernel, by decide +kernel⟩

end Highlight.Html
