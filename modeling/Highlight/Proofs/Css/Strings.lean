import Highlight.Proofs.Language.LastMatch
import Highlight.Proofs.Lexeme.Quoted
/-! # What strings may hold

Inside a string, brackets and the mark that opens a comment are looked for before anything else, and
an escaped backslash is not known. But a step inside a string takes a run of characters as a whole,
so brackets and marks within the run pass for its text. A string is read as what it is exactly if
none of them stands where a step begins and no backslash stands in front of the quote that ends it.
-/
namespace Highlight.Css

open Lexeme Pattern

def brackets : List Char := ['{', '}', '[', ']']

/-- A bracket or the mark that opens a comment stands at the start of the text. -/
def StartsMark (t : Text) : Prop := (∃ c ∈ t.head?, c ∈ brackets) ∨ blockOpen <+: t

/-- A step inside a string can end behind the text: at its start, and behind a quote, a backslash or
an escaped colon. -/
def EndsStep (t : Text) : Prop :=
  t = [] ∨ (∃ c ∈ t.getLast?, isPlain c = false) ∨ [Text.backslash, ':'] <:+ t

/-- Where a step can begin there is no mark, and the quote behind the text would not be escaped. -/
structure Inert (body : Text) : Prop where
  unmarked : ∀ front rest, body = front ++ rest → EndsStep front → ¬ StartsMark rest
  closable : body.getLast? ≠ some Text.backslash

private theorem endsStep_iff {t : Text} : EndsStep t ↔
    t = [] ∨ t.getLast?.any (!isPlain ·) = true ∨ [Text.backslash, ':'] <:+ t := by
  simp [EndsStep, Option.any_eq_true]

private theorem startsMark_cons {c : Char} {t : Text} :
    StartsMark (c :: t) ↔ c ∈ brackets ∨ (c = '/' ∧ t.head? = some '*') := by
  cases t with
  | nil => simp [StartsMark, blockOpen]
  | cons d ds => simp [StartsMark, blockOpen, eq_comm]

private theorem not_startsMark_nil : ¬ StartsMark [] := by simp [StartsMark, blockOpen]

instance : DecidablePred EndsStep := fun _ => decidable_of_iff _ endsStep_iff.symm

instance : DecidablePred StartsMark
  | [] => isFalse not_startsMark_nil
  | _ :: _ => decidable_of_iff _ startsMark_cons.symm

private theorem inert_iff {body : Text} : Inert body ↔
    (∀ i ≤ body.length, EndsStep (body.take i) → ¬ StartsMark (body.drop i)) ∧
      body.getLast? ≠ some Text.backslash := by
  constructor
  · intro h
    exact ⟨fun i _ => h.unmarked _ _ (List.take_append_drop i body).symm, h.closable⟩
  · rintro ⟨hunmarked, hclosable⟩
    refine ⟨?_, hclosable⟩
    rintro front rest rfl hends
    have hcut := hunmarked front.length (by simp)
    rw [List.take_left, List.drop_left] at hcut
    exact hcut hends

instance : DecidablePred Inert := fun _ => decidable_of_iff _ inert_iff.symm

/-- The quote stands nowhere but behind a backslash. -/
def Guarded (q : Char) (t : Text) : Prop :=
  ∀ front rest, t = front ++ q :: rest → front.getLast? = some Text.backslash

variable {st : State} {s : Scanner} {q c d : Char} {last t u piece front rest body : Text}

private theorem not_startsMark_cons (h : isPlain c = false ∨ c = ':') (t : Text) :
    ¬ StartsMark (c :: t) := by
  intro hmark
  have hfirst : c ∈ '/' :: brackets := by
    rcases startsMark_cons.mp hmark with hbracket | ⟨rfl, -⟩
    · exact List.mem_cons_of_mem _ hbracket
    · exact List.mem_cons_self
  have hplain : ('/' :: brackets).all isPlain = true := by decide
  rcases h with h | rfl
  · rw [List.all_eq_true.mp hplain c hfirst] at h
    contradiction
  · exact absurd hfirst (by decide)

private theorem startsMark_append (hq : isQuote q = true) (hne : t ≠ []) (r : Text) :
    StartsMark (t ++ q :: r) ↔ StartsMark t := by
  obtain ⟨c, cs, rfl⟩ := List.exists_cons_of_ne_nil hne
  rw [List.cons_append, startsMark_cons, startsMark_cons]
  cases cs with
  | nil =>
    have hstar : q ≠ '*' := by
      rintro rfl
      contradiction
    simp [hstar]
  | cons d ds => rfl

private theorem endsStep_concat (hc : isPlain c = false) (t : Text) : EndsStep (t ++ [c]) :=
  .inr (.inl ⟨c, by simp, hc⟩)

private theorem EndsStep.append (h : EndsStep t) (hne : t ≠ []) (piece : Text) :
    EndsStep (piece ++ t) := by
  rcases h with hnil | ⟨c, hlast, hc⟩ | hcolon
  · contradiction
  · refine .inr (.inl ⟨c, ?_, hc⟩)
    rw [List.getLast?_append, Option.mem_def.mp hlast]
    rfl
  · exact .inr (.inr (hcolon.trans (List.suffix_append piece t)))

private theorem EndsStep.of_append (h : EndsStep (piece ++ t)) (hne : t ≠ [])
    (hcolon : piece.getLast? = some Text.backslash → t.head? ≠ some ':') : EndsStep t := by
  obtain ⟨init, c, rfl⟩ : ∃ init c, t = init ++ [c] :=
    ⟨t.dropLast, t.getLast hne, (List.dropLast_concat_getLast hne).symm⟩
  rcases h with hnil | ⟨d, hlast, hd⟩ | ⟨before, hsuffix⟩
  · simp at hnil
  · exact .inr (.inl ⟨d, by simpa using hlast, hd⟩)
  · have hcut : before ++ [Text.backslash] ++ [':'] = piece ++ init ++ [c] := by
      simpa using hsuffix
    obtain ⟨hbackslash, hc⟩ := List.append_inj' hcut rfl
    obtain rfl : ':' = c := by simpa using hc
    cases hinit : init.getLast? with
    | none =>
      rw [List.getLast?_eq_none_iff.mp hinit, List.append_nil] at hbackslash
      refine absurd ?_ (hcolon ?_)
      · rw [List.getLast?_eq_none_iff.mp hinit]
        rfl
      · simp [← hbackslash]
    | some e =>
      obtain ⟨inner, rfl⟩ := List.getLast?_eq_some_iff.mp hinit
      rw [← List.append_assoc] at hbackslash
      obtain ⟨-, he⟩ := List.append_inj' hbackslash rfl
      exact .inr (.inr ⟨inner, by simp [← he]⟩)

private theorem guarded_of_allEscaped (h : AllEscaped q t) : Guarded q t := by
  intro front rest ht
  have hescaped : EndsEscaped front := h front rest ht
  cases hlast : front.getLast? with
  | none =>
    rw [List.getLast?_eq_none_iff.mp hlast] at hescaped
    exact absurd hescaped (by decide)
  | some c =>
    obtain ⟨init, rfl⟩ := List.getLast?_eq_some_iff.mp hlast
    by_cases hc : c = Text.backslash
    · rw [hc]
    · exact absurd ((endsEscaped_behind hc init []).mp hescaped) (by decide)

/-- A piece that a step inside a string takes, in front of the rest of the string. -/
structure IsPiece (piece rest : Text) : Prop where
  ne_nil : piece ≠ []
  unmarked : ∀ front back, piece = front ++ back → back ≠ [] → EndsStep front →
    ¬ StartsMark (back ++ rest)
  behind : EndsStep piece ∨ ¬ StartsMark rest
  backslash : piece.getLast? = some Text.backslash → rest ≠ [] ∧ rest.head? ≠ some ':'

namespace IsPiece

private theorem inert (h : IsPiece piece rest) (hrest : Inert rest) : Inert (piece ++ rest) := by
  constructor
  · intro front back hsplit hfront
    -- A step ends inside the piece or behind it.
    rcases List.append_eq_append_iff.mp hsplit with ⟨t, rfl, rfl⟩ | ⟨t, rfl, rfl⟩
    · by_cases hne : t = []
      · subst hne
        exact hrest.unmarked [] back rfl (.inl rfl)
      · refine hrest.unmarked t back rfl (hfront.of_append hne fun hlast hcolon => ?_)
        apply (h.backslash hlast).2
        rw [List.head?_append, hcolon]
        rfl
    · by_cases hne : t = []
      · subst hne
        exact hrest.unmarked [] rest rfl (.inl rfl)
      · exact h.unmarked front t rfl hne hfront
  · rw [List.getLast?_append]
    cases hlast : rest.getLast? with
    | none =>
      intro hpiece
      exact (h.backslash hpiece).1 (List.getLast?_eq_none_iff.mp hlast)
    | some c =>
      rw [← hlast]
      simpa [hlast] using hrest.closable

end IsPiece

private theorem isPiece_run (hne : piece ≠ []) (hplain : ∀ c ∈ piece, isPlain c = true)
    (hrest : rest.Stops isPlain) (hstart : ¬ StartsMark (piece ++ rest)) : IsPiece piece rest := by
  have hinside : ∀ front back, piece = front ++ back → front ≠ [] → ¬ EndsStep front := by
    rintro front back rfl hfront (hnil | ⟨c, hlast, hc⟩ | hcolon)
    · exact hfront hnil
    · have hmem : c ∈ front := List.mem_of_getLast? hlast
      rw [hplain c (List.mem_append_left back hmem)] at hc
      contradiction
    · have hmem : Text.backslash ∈ front := hcolon.subset List.mem_cons_self
      exact absurd (hplain _ (List.mem_append_left back hmem)) (by decide)
  refine ⟨hne, ?_, .inr ?_, ?_⟩
  · intro front back hsplit _ hfront
    by_cases hnil : front = []
    · subst hnil
      rw [List.nil_append] at hsplit
      rwa [← hsplit]
    · exact absurd hfront (hinside front back hsplit hnil)
  · cases rest with
    | nil => exact not_startsMark_nil
    | cons c cs => exact not_startsMark_cons (.inl (Text.stops_cons.mp hrest)) cs
  · intro hlast
    exact absurd (hplain _ (List.mem_of_getLast? hlast)) (by decide)

private theorem isPiece_single (hc : isPlain c = false)
    (hrest : c = Text.backslash → rest ≠ [] ∧ rest.head? ≠ some ':') : IsPiece [c] rest := by
  refine ⟨by simp, ?_, .inl (endsStep_concat hc []), ?_⟩
  · intro front back hsplit hback _
    rcases List.singleton_eq_append_iff.mp hsplit with ⟨rfl, rfl⟩ | ⟨-, rfl⟩
    · exact not_startsMark_cons (.inl hc) rest
    · contradiction
  · intro hlast
    exact hrest (by simpa using hlast)

/-- The characters that a backslash escapes. -/
def isEscaped (c : Char) : Bool := [Text.doubleQuote, Text.singleQuote, ':'].contains c

private theorem isEscaped_cases (h : isEscaped c = true) : isQuote c = true ∨ c = ':' := by
  simpa [isEscaped, isQuote, or_assoc] using h

private theorem isPlain_of_isQuote (h : isQuote c = true) :
    isPlain c = false := by simp [isPlain, h]

private theorem isPiece_escape (hd : isEscaped d = true) (rest : Text) :
    IsPiece [Text.backslash, d] rest := by
  have hcases := isEscaped_cases hd
  refine ⟨by simp, ?_, ?_, ?_⟩
  · intro front back hsplit hback _
    rcases List.cons_eq_append_iff.mp hsplit with ⟨rfl, rfl⟩ | ⟨more, rfl, hmore⟩
    · exact not_startsMark_cons (.inl rfl) _
    · rcases List.singleton_eq_append_iff.mp hmore with ⟨rfl, rfl⟩ | ⟨-, rfl⟩
      · exact not_startsMark_cons (hcases.imp_left isPlain_of_isQuote) rest
      · contradiction
  · rcases hcases with hquote | rfl
    · exact .inl (endsStep_concat (isPlain_of_isQuote hquote) [Text.backslash])
    · exact .inl (.inr (.inr List.suffix_rfl))
  · intro hlast
    obtain rfl : d = Text.backslash := by simpa using hlast
    contradiction

/-- In a string that the quote ends. -/
structure State.InString (st : State) (q : Char) : Prop where
  opener : st.stringOpener = some q
  isQuote : isQuote q = true
  inBlockComment : st.inBlockComment = false

theorem bracket?_eq_none (hs : s.rest = c :: t) (h : c ∉ brackets) (st : State) :
    bracket? s st = none := by
  simp only [brackets, List.mem_cons, List.not_mem_nil, or_false, not_or] at h
  obtain ⟨hopen, hclose, hselect, hselected⟩ := h
  rw [bracket?, Scanner.tokenChar?_eq_none hs hopen, Scanner.tokenChar?_eq_none hs hclose,
    Scanner.tokenChar?_eq_none hs hselect, Scanner.tokenChar?_eq_none hs hselected]
  rfl

theorem bracket?_eq_some (hs : s.rest = c :: t) (h : c ∈ brackets) (st : State) :
    ∃ st', bracket? s st = some ((s.advance 1).emit .text, st') := by
  simp only [brackets, List.mem_cons, List.not_mem_nil, or_false] at h
  rcases h with rfl | rfl | rfl | rfl
  all_goals exact ⟨_, by simp [bracket?, Scanner.tokenChar?, Scanner.acceptChar?, Scanner.accept?,
    hs, Pattern.char, Pattern.one]; rfl⟩

private theorem openComment?_eq (s : Scanner) (st : State) : openComment? s st =
    if blockOpen <+: s.rest then
      some ((s.advance 2).emit .comment, { st with inBlockComment := true })
    else none := by
  rw [openComment?, Scanner.tokenText?, Scanner.acceptText?_eq]
  by_cases h : blockOpen <+: s.rest
  · rw [if_pos ⟨by decide, h⟩, if_pos h]
    rfl
  · rw [if_neg fun hboth => h hboth.2, if_neg h]
    rfl

private theorem scan_mark (h : st.InString q) (hmark : StartsMark s.rest) :
    ∃ piece kind st', piece ≠ [] ∧ piece <+: s.rest ∧ kind ≠ .string ∧ kind ≠ .escape ∧
      scan s st = ((s.advance piece.length).emit kind, st') := by
  have hcomment : ¬ st.inBlockComment = true := by simp [h.inBlockComment]
  cases hs : s.rest with
  | nil => exact absurd (hs ▸ hmark) not_startsMark_nil
  | cons c t =>
    by_cases hc : c ∈ brackets
    · obtain ⟨st', hbracket⟩ := bracket?_eq_some hs hc st
      refine ⟨[c], .text, st', by simp, by simp, by decide, by decide, ?_⟩
      rw [scan, if_neg hcomment, hbracket]
      rfl
    · have hopen : blockOpen <+: s.rest := by
        rcases hmark with ⟨d, hd, hbracket⟩ | hopen
        · rw [hs] at hd
          obtain rfl : c = d := by simpa using hd
          contradiction
        · exact hopen
      refine ⟨blockOpen, .comment, { st with inBlockComment := true }, by decide, hs ▸ hopen,
        by decide, by decide, ?_⟩
      rw [scan, if_neg hcomment, bracket?_eq_none hs hc, openComment?_eq, if_pos hopen]
      rfl

private theorem scan_string (h : st.InString q) (hs : s.rest = c :: t)
    (hmark : ¬ StartsMark (c :: t)) :
    scan s st = ((s.token? .escape escape).map (·, st)).getD (scanString q s st) := by
  have hcomment : ¬ st.inBlockComment = true := by simp [h.inBlockComment]
  have hbracket : c ∉ brackets := fun hc => hmark (startsMark_cons.mpr (.inl hc))
  have hopen : ¬ blockOpen <+: s.rest := fun hprefix => hmark (.inr (hs ▸ hprefix))
  rw [scan, if_neg hcomment, bracket?_eq_none hs hbracket, openComment?_eq, if_neg hopen, h.opener]
  cases s.token? .escape escape <;> rfl

theorem escape_eq_none (h : c = Text.backslash → ∀ d ∈ t.head?, isEscaped d = false) :
    escape (c :: t) = none := by
  by_cases hc : c = Text.backslash
  · subst hc
    exact (takes_char Text.backslash t).seq_eq_none (one_eq_none (h rfl))
  · exact seq_eq_none (one_eq_none (Text.stops_cons.mpr (by simpa using hc)))

private theorem advances_escape (h : st.InString q) (hd : isEscaped d = true) (last u : Text) :
    language.Advances last st [Text.backslash, d] [⟨.escape, [Text.backslash, d]⟩]
      [Text.backslash, d] st u := by
  have htakes : escape.Takes [Text.backslash, d] u :=
    (takes_char Text.backslash ([d] ++ u)).seq (takes_one hd u)
  have hmark : ¬ StartsMark (Text.backslash :: d :: u) := not_startsMark_cons (.inl rfl) _
  apply Language.advances_token (by simp)
  change scan _ _ = _
  rw [scan_string h rfl hmark, Scanner.token?_of_takes rfl htakes]
  rfl

private theorem advances_close (h : st.InString q) (last u : Text) :
    language.Advances last st [q] [⟨.string, [q]⟩] [q] { st with stringOpener := none } u := by
  have hmark : ¬ StartsMark (q :: u) := not_startsMark_cons (.inl (isPlain_of_isQuote h.isQuote)) u
  have hescape : escape (q :: u) = none :=
    escape_eq_none fun hq => absurd hq (isQuote_ne_backslash h.isQuote)
  apply Language.advances_token (by simp)
  change scan _ _ = _
  rw [scan_string h rfl hmark, Scanner.token?_eq_none hescape, scanString,
    Scanner.tokenChar?_eq_some (r := u) rfl]
  rfl

private theorem advances_piece (h : st.InString q) (hc : c ≠ q) (hmark : ¬ StartsMark (c :: t ++ u))
    (hescape : escape (c :: t ++ u) = none)
    (hpiece : (alt stringBody (one fun _ => true)).Takes (c :: t) u) (last : Text) :
    language.Advances last st (c :: t) [⟨.string, c :: t⟩] (c :: t) st u := by
  apply Language.advances_token (by simp)
  change scan _ _ = _
  rw [scan_string h rfl hmark, Scanner.token?_eq_none hescape, scanString,
    Scanner.tokenChar?_eq_none rfl hc, Scanner.accept_of_takes last hpiece]
  rfl

private theorem Guarded.behind (piece : Text) (h : Guarded q (piece ++ t))
    (hpiece : t.head? = some q → piece.getLast? ≠ some Text.backslash) : Guarded q t := by
  intro front rest ht
  have hlast := h (piece ++ front) rest (by rw [ht, List.append_assoc])
  cases front with
  | nil =>
    rw [List.append_nil] at hlast
    exact absurd hlast (hpiece (by simp [ht]))
  | cons c front =>
    rw [List.getLast?_append, List.getLast?_cons, Option.some_or] at hlast
    rwa [List.getLast?_cons]

/-- A first step in front of the quote that should end the string takes a piece of it. -/
def HasPiece (st : State) (q : Char) (last body r : Text) : Prop :=
  ∃ piece rest token, body = piece ++ rest ∧ IsPiece piece rest ∧ Guarded q rest ∧
    StringTokens .string piece [token] ∧
    language.Advances last st piece [token] piece st (rest ++ q :: r)

private theorem hasPiece_run (h : st.InString q) (hc : isPlain c = true)
    (hbody : Guarded q (c :: t))
    (hmark : ¬ StartsMark (c :: t)) (last r : Text) : HasPiece st q last (c :: t) r := by
  have hsplit := run_append_rest isPlain c t
  have hall := forall_mem_run hc t
  have hrest : Text.Stops isPlain (t.dropWhile isPlain) := by
    have hstops := Text.stops_dropWhile_append isPlain t (Text.stops_nil isPlain)
    rwa [List.append_nil] at hstops
  have htake : stringBody.Takes (c :: t.takeWhile isPlain) (t.dropWhile isPlain ++ q :: r) :=
    takes_run hc t (stops_isPlain_of_isQuote h.isQuote r)
  have hbackslash : c ≠ Text.backslash := (isPlain_iff.mp hc).2
  have hquote : c ≠ q := by
    rintro rfl
    rw [isPlain_of_isQuote h.isQuote] at hc
    contradiction
  have hline : ¬ StartsMark (c :: t.takeWhile isPlain ++ (t.dropWhile isPlain ++ q :: r)) := by
    rw [← List.append_assoc, ← hsplit]
    exact (not_congr (startsMark_append h.isQuote (by simp) r)).mpr hmark
  refine ⟨c :: t.takeWhile isPlain, t.dropWhile isPlain, _, hsplit,
    isPiece_run (by simp) hall hrest (hsplit ▸ hmark), ?_, .single _ _,
    advances_piece h hquote hline ?_ (htake.alt_left _) last⟩
  · rw [hsplit] at hbody
    refine hbody.behind _ fun _ hlast => ?_
    exact absurd (hall _ (List.mem_of_getLast? hlast)) (by decide)
  · exact escape_eq_none fun hc => absurd hc hbackslash

private theorem hasPiece_single (h : st.InString q) (hc : isPlain c = false) (hquote : c ≠ q)
    (hrest : c = Text.backslash → ∃ d ds, rest = d :: ds ∧ isEscaped d = false)
    (hbody : Guarded q (c :: rest)) (last r : Text) : HasPiece st q last (c :: rest) r := by
  have hnone : stringBody (c :: (rest ++ q :: r)) = none :=
    many1_eq_none (Text.stops_cons.mpr hc)
  have hescape : escape (c :: (rest ++ q :: r)) = none := by
    apply escape_eq_none
    intro hbackslash e he
    obtain ⟨d, ds, rfl, hd⟩ := hrest hbackslash
    obtain rfl : d = e := by simpa using he
    exact hd
  refine ⟨[c], rest, _, rfl, isPiece_single hc ?_, hbody.behind [c] ?_, .single _ _,
    advances_piece (t := []) h hquote (not_startsMark_cons (.inl hc) _) hescape
      ((takes_one rfl _).alt_right hnone) last⟩
  · intro hbackslash
    obtain ⟨d, ds, rfl, hd⟩ := hrest hbackslash
    refine ⟨by simp, fun hcolon => ?_⟩
    obtain rfl : d = ':' := by simpa using hcolon
    contradiction
  · intro hhead hlast
    obtain ⟨d, ds, rfl, hd⟩ := hrest (by simpa using hlast)
    obtain rfl : d = q := by simpa using hhead
    rcases isQuote_iff.mp h.isQuote with rfl | rfl <;> contradiction

private theorem hasPiece (h : st.InString q) (hbody : Guarded q (c :: t))
    (hmark : ¬ StartsMark (c :: t)) (hbackslash : c :: t ≠ [Text.backslash]) (last r : Text) :
    HasPiece st q last (c :: t) r := by
  have hquote : c ≠ q := by
    rintro rfl
    exact absurd (hbody [] t rfl) (by simp)
  cases hplain : isPlain c with
  | true => exact hasPiece_run h hplain hbody hmark last r
  | false =>
    by_cases hc : c = Text.backslash
    · subst hc
      have hne : t ≠ [] := fun ht => hbackslash (by rw [ht])
      obtain ⟨d, ds, rfl⟩ := List.exists_cons_of_ne_nil hne
      by_cases hd : isEscaped d = true
      · refine ⟨[Text.backslash, d], ds, _, rfl, isPiece_escape hd ds,
          hbody.behind [Text.backslash, d] fun _ hlast => ?_, .escape _ _,
          advances_escape h hd last _⟩
        obtain rfl : d = Text.backslash := by simpa using hlast
        contradiction
      · exact hasPiece_single h rfl hquote (fun _ => ⟨d, ds, rfl, by simpa using hd⟩) hbody last r
    · exact hasPiece_single h hplain hquote (fun hback => absurd hback hc) hbody last r

/-- Reading a string comes to the quote that should end it, or before that to a mark or to a
backslash that escapes the quote. -/
theorem inert_or_breaks (h : st.InString q) (hbody : Guarded q body) (last r : Text) :
    (Inert body ∧ ∃ tokens last', StringTokens .string body tokens ∧
      language.Advances last st body tokens last' st (q :: r)) ∨
    (∃ front rest tokens last', body = front ++ rest ∧ StringTokens .string front tokens ∧
      language.Advances last st front tokens last' st (rest ++ q :: r) ∧
      (rest = [Text.backslash] ∨ (EndsStep front ∧ StartsMark rest))) := by
  generalize hn : body.length = n
  induction n using Nat.strongRecOn generalizing body last with
  | ind n ih =>
    by_cases hmark : StartsMark body
    · exact .inr ⟨[], body, [], last, rfl, .nil _, .refl _ _ _ _, .inr ⟨.inl rfl, hmark⟩⟩
    by_cases hbackslash : body = [Text.backslash]
    · exact .inr ⟨[], body, [], last, rfl, .nil _, .refl _ _ _ _, .inl hbackslash⟩
    cases body with
    | nil =>
      refine .inl ⟨⟨?_, by simp⟩, [], last, .nil _, .refl _ _ _ _⟩
      intro front rest hsplit _
      rw [(List.append_eq_nil_iff.mp hsplit.symm).2]
      exact not_startsMark_nil
    | cons c t =>
      obtain ⟨piece, rest, token, hsplit, hpiece, hguarded, hcover, hfirst⟩ :=
        hasPiece h hbody hmark hbackslash last r
      have hlength : rest.length < n := by
        have hpos : 0 < piece.length := List.length_pos_iff.mpr hpiece.ne_nil
        have hsum := congrArg List.length hsplit
        rw [List.length_append] at hsum
        omega
      rw [hsplit]
      -- What the rest of the body does, the body does with the piece in front of it.
      rcases ih rest.length hlength hguarded piece rfl with
        ⟨hinert, tokens, last', hcovers, hmore⟩ |
          ⟨front, back, tokens, last', rfl, hcovers, hmore, hstop⟩
      · exact .inl ⟨hpiece.inert hinert, _, last', hcover.append hcovers, hfirst.trans hmore⟩
      · rw [List.append_assoc] at hfirst
        refine .inr ⟨piece ++ front, back, _, last', by rw [List.append_assoc],
          hcover.append hcovers, hfirst.trans hmore, ?_⟩
        rcases hstop with hback | ⟨hends, hstarts⟩
        · exact .inl hback
        · refine .inr ⟨?_, hstarts⟩
          by_cases hfront : front = []
          · subst hfront
            rw [List.append_nil]
            exact hpiece.behind.resolve_right fun hno => hno hstarts
          · exact hends.append hfront piece

/-- The first token in front of the rest of a string is none of the string: the quote that should end
the string is a part of it, or its kind is another. -/
def Misreads (rest : Text) (tokens : List Token) : Prop :=
  ∃ token ∈ tokens.head?, rest.length < token.text.length ∨
    token.kind ≠ .escape ∧ token.kind ≠ .string

private theorem misreads_escape (h : st.InString q) (last r : Text) :
    Misreads [Text.backslash] (language.lex last ([Text.backslash] ++ q :: r) st).1 := by
  have hq : isEscaped q = true := by
    rcases isQuote_iff.mp h.isQuote with rfl | rfl <;> rfl
  have hfirst : language.lex last ([Text.backslash] ++ q :: r) st = _ :=
    advances_escape h hq last r
  rw [hfirst]
  exact ⟨_, rfl, .inl (by simp)⟩

private theorem misreads_mark (h : st.InString q) (hmark : StartsMark rest) (last r : Text) :
    Misreads rest (language.lex last (rest ++ q :: r) st).1 := by
  have hne : rest ≠ [] := by
    rintro rfl
    exact not_startsMark_nil hmark
  have hline : StartsMark (Scanner.resume last (rest ++ q :: r)).rest :=
    (startsMark_append h.isQuote hne r).mpr hmark
  obtain ⟨piece, kind, st', hpiece, ⟨back, hback⟩, hstring, hescape, hscan⟩ := scan_mark h hline
  change piece ++ back = rest ++ q :: r at hback
  rw [← hback] at hscan ⊢
  have hfirst : language.lex last (piece ++ back) st = _ :=
    Language.advances_token (L := language) hpiece hscan
  rw [hfirst]
  exact ⟨_, rfl, .inr ⟨hescape, hstring⟩⟩

private theorem not_misreads {ts us more more' : List Token} (hts : Token.spell ts = front)
    (hus : StringTokens .string (front ++ rest) us) (hne : rest ≠ [])
    (hsame : ts ++ more = us ++ more') : ¬ Misreads rest more := by
  rintro ⟨token, hhead, hmis⟩
  have hlength : 0 < rest.length := List.length_pos_iff.mpr hne
  -- Either the misread token is one of those that spell the string, or these stop too early.
  rcases List.append_eq_append_iff.mp hsame with ⟨ws, rfl, rfl⟩ | ⟨ws, rfl, -⟩
  · have hspell : Token.spell ws = rest := by
      simpa [hts] using hus.spell
    cases ws with
    | nil => exact hne hspell.symm
    | cons w ws =>
      obtain rfl : w = token := by simpa using hhead
      have hkind := hus.kinds w (List.mem_append_right ts List.mem_cons_self)
      have hsum := congrArg List.length hspell
      rw [Token.spell_cons, List.length_append] at hsum
      rcases hmis with hlong | ⟨hescape, hstring⟩
      · omega
      · exact hkind.elim hescape hstring
  · have hsum := congrArg List.length hts
    rw [Token.spell_append, hus.spell, List.length_append, List.length_append] at hsum
    omega

/-- A string that is open before the line, up to a quote of its kind before which all others are
escaped, is read as what it is exactly if it is inert: its tokens are of the string or escapes in it,
and behind the quote the rest is read as a line of its own from the state in which the string is
closed and nothing else changed. -/
theorem string_read_iff_inert (h : st.InString q) (hbody : AllEscaped q body) (rest : Text) :
    (∃ tokens, StringTokens .string body tokens ∧
      language.tokenizeLine (body ++ q :: rest) st =
        ⟨tokens ++ ⟨.string, [q]⟩ ::
            (language.tokenizeLine rest { st with stringOpener := none }).tokens,
          (language.tokenizeLine rest { st with stringOpener := none }).outbound⟩) ↔
      Inert body := by
  have hguarded := guarded_of_allEscaped hbody
  constructor
  · rintro ⟨tokens, hcover, hline⟩
    rcases inert_or_breaks h hguarded [] rest with
      ⟨hinert, -⟩ | ⟨front, back, ts, last', rfl, hts, hread, hstop⟩
    · exact hinert
    · have hback : back ≠ [] ∧
          Misreads back (language.lex last' (back ++ q :: rest) st).1 := by
        rcases hstop with rfl | ⟨-, hmark⟩
        · exact ⟨by simp, misreads_escape h last' rest⟩
        · refine ⟨?_, misreads_mark h hmark last' rest⟩
          rintro rfl
          exact not_startsMark_nil hmark
      have hsame := congrArg LineTokens.tokens hline
      rw [List.append_assoc] at hsame
      change (language.lex [] (front ++ (back ++ q :: rest)) st).1 = _ at hsame
      rw [show language.lex [] (front ++ (back ++ q :: rest)) st = _ from hread] at hsame
      exact absurd hback.2 (not_misreads hts.spell hcover hback.1 hsame)
  · intro hinert
    rcases inert_or_breaks h hguarded [] rest with
      ⟨-, tokens, last', hcover, hread⟩ | ⟨front, back, ts, last', rfl, -, -, hstop⟩
    · have hstring := hread.trans (advances_close h last' rest)
      rw [Language.Advances, lex_last [q] [], List.append_assoc, List.append_assoc] at hstring
      refine ⟨tokens, hcover, ?_⟩
      change LineTokens.mk (language.lex [] (body ++ q :: rest) st).1
        (endLine (language.lex [] (body ++ q :: rest) st).2) = _
      rw [show language.lex [] (body ++ q :: rest) st = _ from hstring]
      rfl
    · rcases hstop with rfl | ⟨hends, hmark⟩
      · exact absurd (by simp) hinert.closable
      · exact absurd hmark (hinert.unmarked front back rfl hends)

/-- A brace and a mark within runs pass; where a step begins, the brace does not, and the backslash
that another one escapes escapes the quote. -/
theorem string_read_iff_inert_runs :
    let st : State := { inRule := true, stringOpener := some Text.doubleQuote }
    let closed : State := { inRule := true }
    let quote : Text := [Text.doubleQuote]
    let runs : Text := "a\x7b\\".toList ++ quote ++ "b/*".toList
    let brace : Text := "\x7b".toList
    let backslashes : Text := "\\\\".toList
    (st.InString Text.doubleQuote ∧ AllEscaped Text.doubleQuote runs ∧ ∃ tokens,
      StringTokens .string runs tokens ∧
      language.tokenizeLine (runs ++ Text.doubleQuote :: "\x7d".toList) st =
        ⟨tokens ++ ⟨.string, quote⟩ :: (language.tokenizeLine "\x7d".toList closed).tokens,
          (language.tokenizeLine "\x7d".toList closed).outbound⟩) ∧
    (AllEscaped Text.doubleQuote brace ∧ AllEscaped Text.doubleQuote backslashes ∧
      ¬ EndsEscaped backslashes ∧ ∀ body ∈ [brace, backslashes], ¬ ∃ tokens,
        StringTokens .string body tokens ∧
        language.tokenizeLine (body ++ Text.doubleQuote :: []) st =
          ⟨tokens ++ ⟨.string, quote⟩ :: (language.tokenizeLine [] closed).tokens,
            (language.tokenizeLine [] closed).outbound⟩) := by
  intro st closed quote runs brace backslashes
  have h : st.InString Text.doubleQuote := ⟨rfl, rfl, rfl⟩
  have hruns : AllEscaped Text.doubleQuote runs := by decide
  have hbrace : AllEscaped Text.doubleQuote brace := by decide
  have hbackslashes : AllEscaped Text.doubleQuote backslashes := by decide
  have hinert : Inert runs := by decide
  refine ⟨⟨h, hruns, (string_read_iff_inert h hruns _).mpr hinert⟩, hbrace, hbackslashes,
    by decide, ?_⟩
  intro body hmem
  rcases List.mem_cons.mp hmem with rfl | hmem
  · exact (not_congr (string_read_iff_inert h hbrace [])).mpr (by decide)
  · rw [List.mem_singleton.mp hmem]
    exact (not_congr (string_read_iff_inert h hbackslashes [])).mpr (by decide)

/-- A brace in a string opens a rule. -/
theorem string_opens_rule :
    let st : State := { stringOpener := some Text.doubleQuote }
    let closed : State := {}
    let brace : Text := "\x7b".toList
    st.InString Text.doubleQuote ∧ AllEscaped Text.doubleQuote brace ∧ ¬ EndsEscaped brace ∧
      (language.tokenizeLine (brace ++ [Text.doubleQuote]) st).tokens.head? =
        some ⟨.text, brace⟩ ∧
      (language.tokenizeLine (brace ++ [Text.doubleQuote]) st).outbound.inRule = true ∧
      ¬ ∃ tokens, StringTokens .string brace tokens ∧
        language.tokenizeLine (brace ++ [Text.doubleQuote]) st =
          ⟨tokens ++ ⟨.string, [Text.doubleQuote]⟩ :: (language.tokenizeLine [] closed).tokens,
            (language.tokenizeLine [] closed).outbound⟩ := by
  intro st closed brace
  have hrule : (language.tokenizeLine (brace ++ [Text.doubleQuote]) st).outbound.inRule = true := by
    decide +kernel
  have hclosed : (language.tokenizeLine [] closed).outbound.inRule = false := by decide +kernel
  refine ⟨⟨rfl, rfl, rfl⟩, by decide, by decide, by decide +kernel, hrule, ?_⟩
  rintro ⟨tokens, -, hline⟩
  rw [hline] at hrule
  rw [hclosed] at hrule
  contradiction

end Highlight.Css
