import Highlight.Proofs.Html.Block
import Highlight.Proofs.Language.LastMatch
/-! # Lines on which a block ends

The language of a block reads a line up to the first closing tag of the block, and the markup reads
on from there as if there had been no block.
-/
namespace Highlight.Html

/-- Behind the front is the first closing tag of an element in the line. -/
structure FirstClosing (name front rest : Text) : Prop where
  starts : StartsClosing name rest
  first : ∀ earlier later, front ++ rest = earlier ++ later → StartsClosing name later →
    front.length ≤ earlier.length

private theorem firstClosing_nil {name rest : Text} :
    FirstClosing name [] rest ↔ StartsClosing name rest :=
  ⟨FirstClosing.starts, fun h => ⟨h, fun _ _ _ _ => Nat.zero_le _⟩⟩

private theorem firstClosing_cons {name front rest : Text} {c : Char} :
    FirstClosing name (c :: front) rest ↔
      ¬ StartsClosing name (c :: (front ++ rest)) ∧ FirstClosing name front rest := by
  constructor
  · intro h
    constructor
    · intro hstarts
      have hle := h.first [] _ rfl hstarts
      contradiction
    · refine ⟨h.starts, ?_⟩
      intro earlier later hline hlater
      have hle := h.first (c :: earlier) later (congrArg (c :: ·) hline) hlater
      exact Nat.le_of_succ_le_succ hle
  · rintro ⟨hnot, h⟩
    refine ⟨h.starts, ?_⟩
    intro earlier later hline hlater
    cases earlier with
    | nil =>
      obtain rfl : c :: (front ++ rest) = later := hline
      contradiction
    | cons d earlier =>
      have hle := h.first earlier later (List.tail_eq_of_cons_eq hline) hlater
      exact Nat.succ_le_succ hle

/-- A line with a closing tag has a first one, so every line either leaves the block open or can be
cut there. -/
theorem Closes.exists_first {name line : Text} (h : Closes name line) :
    ∃ front rest, line = front ++ rest ∧ FirstClosing name front rest := by
  induction line with
  | nil => exact absurd h (not_closes_nil name)
  | cons c cs ih =>
    by_cases hstarts : StartsClosing name (c :: cs)
    · exact ⟨[], c :: cs, rfl, firstClosing_nil.mpr hstarts⟩
    · obtain ⟨front, rest, rfl, hfirst⟩ := ih ((closes_cons.mp h).resolve_left hstarts)
      exact ⟨c :: front, rest, rfl, firstClosing_cons.mpr ⟨hstarts, hfirst⟩⟩

theorem findClosingTag?_eq_some {name front rest : Text} :
    findClosingTag? name (front ++ rest) = some front.length ↔ FirstClosing name front rest := by
  induction front with
  | nil =>
    rw [firstClosing_nil, ← beginsClosingTag_iff, List.nil_append, List.length_nil]
    cases rest with
    | nil => simp [findClosingTag?, beginsClosingTag, Text.lowercase]
    | cons c cs =>
      rw [findClosingTag?]
      by_cases hbegins : beginsClosingTag name (c :: cs) = true
      · simp [hbegins]
      · simp [hbegins]
  | cons c front ih =>
    rw [firstClosing_cons, ← ih, ← beginsClosingTag_iff, List.cons_append, findClosingTag?,
      List.length_cons]
    by_cases hbegins : beginsClosingTag name (c :: (front ++ rest)) = true
    · simp [hbegins]
    · simp [hbegins]

/-- The tokens of a line in the language of the block, from the state of the block. -/
def Embedded.ownTokens (line : Text) : Embedded → List Token
  | .javaScript st => (JavaScript.language.tokenizeLine line st).tokens
  | .css st => (Css.language.tokenizeLine line st).tokens

private theorem Embedded.tokenize_tokens (block : Embedded) (line : Text) :
    (block.tokenize line).1 = block.ownTokens line := by
  cases block with
  | javaScript st => rfl
  | css st => rfl

variable {st : State} {block : Embedded} {front rest : Text}

private theorem lex_closing (hblock : st.embedded = some block)
    (hstarts : StartsClosing block.tagName rest) (last : Text) :
    language.lex last rest st = language.lex last rest { st with embedded := none } := by
  obtain ⟨c, cs, rfl⟩ := List.exists_cons_of_ne_nil hstarts.ne_nil
  have hfind : findClosingTag? block.tagName (c :: cs) = some 0 := by
    rw [findClosingTag?, if_pos (beginsClosingTag_iff.mpr hstarts)]
  have hscan : language.scan (.resume last (c :: cs)) st =
      language.scan (.resume last (c :: cs)) { st with embedded := none } := by
    change scan _ st = scan _ { st with embedded := none }
    rw [scan, hblock]
    exact scanEmbedded_at hfind
  rw [Language.lex, Language.lex, hscan]

private theorem advances_front (hblock : st.embedded = some block)
    (hfirst : FirstClosing block.tagName front rest) (hfront : front ≠ []) (last : Text) :
    language.Advances last st front (block.tokenize front).1 front { st with embedded := none }
      rest := by
  obtain ⟨n, hn⟩ : ∃ n, front.length = n + 1 :=
    Nat.exists_eq_succ_of_ne_zero (mt List.length_eq_zero_iff.mp hfront)
  have hfind : findClosingTag? block.tagName (Scanner.resume last (front ++ rest)).rest =
      some (n + 1) := hn ▸ findClosingTag?_eq_some.mpr hfirst
  have htake : (Scanner.resume last (front ++ rest)).rest.take (n + 1) = front := by
    rw [← hn]
    exact List.take_left
  apply Language.advances_step front hfront
  change scan (.resume last (front ++ rest)) st = _
  rw [scan, hblock]
  change scanEmbedded block (.resume last (front ++ rest)) st = _
  rw [scanEmbedded_before hfind, htake, Scanner.embed_eq rfl]
  rfl

/-- In any state with a block, a line that has the first closing tag of the block behind a front is
read as the language of the block reads the front from the state of the block, which makes no token
of an empty front, and from there as the markup reads the rest where there is no block. Nothing of
the block is handed on. -/
theorem block_handed_over (hblock : st.embedded = some block)
    (hfirst : FirstClosing block.tagName front rest) :
    let outer := language.tokenizeLine rest { st with embedded := none }
    language.tokenizeLine (front ++ rest) st =
        ⟨block.ownTokens front ++ outer.tokens, outer.outbound⟩ ∧
      (front = [] → block.ownTokens front = []) := by
  intro outer
  have hlex : language.lex [] (front ++ rest) st =
      (block.ownTokens front ++ (language.lex [] rest { st with embedded := none }).1,
        (language.lex [] rest { st with embedded := none }).2) := by
    rw [← block.tokenize_tokens]
    by_cases hfront : front = []
    · subst hfront
      rw [List.nil_append, lex_closing hblock hfirst.starts, block.tokenize_nil_tokens]
      rfl
    · rw [advances_front hblock hfirst hfront [], lex_last front []]
  constructor
  · change (⟨(language.lex [] (front ++ rest) st).1,
      endLine (language.lex [] (front ++ rest) st).2⟩ : LineTokens State) = _
    rw [hlex]
    rfl
  · rintro rfl
    rw [← block.tokenize_tokens]
    exact block.tokenize_nil_tokens

/-- In a string that goes on from the line before, and in a comment behind a number in a rule, a
longer name does not close the block, and the name does, in capitals. Behind it the script has a new
block, and the sheet none. -/
theorem block_handed_over_mixed :
    let st := language.tokenizer.behind language.initial ["<script>'\x5c".toList]
    let block : Embedded := .javaScript
      { current := { opener := some Text.singleQuote }, newlineEscape := true }
    let front := "</scripts>".toList
    let rest := "</SCRIPT ><style>b".toList
    let outer := language.tokenizeLine rest { st with embedded := none }
    let st' := language.tokenizer.behind language.initial ["<style>a\x7b".toList]
    let sheet : Embedded := .css { inRule := true }
    let front' := "0/*</styles>".toList
    let rest' := "</STYLE >b".toList
    let outer' := language.tokenizeLine rest' { st' with embedded := none }
    (st.embedded = some block ∧ FirstClosing block.tagName front rest ∧
      language.tokenizeLine (front ++ rest) st =
        ⟨⟨.string, front⟩ :: outer.tokens, outer.outbound⟩ ∧
      outer.outbound = { tagName := some "style".toList, embedded := some (.css {}) }) ∧
    st'.embedded = some sheet ∧ FirstClosing sheet.tagName front' rest' ∧
      language.tokenizeLine (front' ++ rest') st' =
        ⟨[⟨.number, ['0']⟩, ⟨.comment, "/*".toList⟩, ⟨.comment, "</styles>".toList⟩] ++
          outer'.tokens, outer'.outbound⟩ ∧
      outer'.outbound = { closingTag := true, tagName := some "style".toList } := by
  intro st block front rest outer st' sheet front' rest' outer'
  have hblock : st.embedded = some block := by decide +kernel
  have hfirst : FirstClosing block.tagName front rest :=
    findClosingTag?_eq_some.mp (by decide +kernel)
  have hfront : block.ownTokens front = [⟨.string, front⟩] := by decide +kernel
  have hsheet : st'.embedded = some sheet := by decide +kernel
  have hfirst' : FirstClosing sheet.tagName front' rest' :=
    findClosingTag?_eq_some.mp (by decide +kernel)
  have hfront' : sheet.ownTokens front' = [⟨.number, ['0']⟩, ⟨.comment, "/*".toList⟩,
      ⟨.comment, "</styles>".toList⟩] := by decide +kernel
  have hline := (block_handed_over hblock hfirst).1
  have hline' := (block_handed_over hsheet hfirst').1
  rw [hfront] at hline
  rw [hfront'] at hline'
  exact ⟨⟨hblock, hfirst, hline, by decide +kernel⟩, hsheet, hfirst', hline', by decide +kernel⟩

end Highlight.Html
