import Highlight.Json.Language
import Highlight.Proofs.Json.Grammar
import Highlight.Proofs.Lexeme.Quoted
/-! # Reading strings

A string is read up to the quote that ends it, whatever its escape sequences are taken for: no token
of its body reaches over that quote. All tokens are escape sequences or of the kind that the state
gives to strings.
-/
namespace Highlight.Json

open Lexeme Pattern

/-- The state between two lexical elements. -/
structure State.BetweenElements (st : State) : Prop where
  stringOpener : st.stringOpener = none
  newlineEscape : st.newlineEscape = false
  inBlockComment : st.inBlockComment = false

def State.within (st : State) (quote : Char) : State := { st with stringOpener := some quote }

variable {st : State} {q : Char} {last t r : Text}

theorem scan_between (hst : st.BetweenElements) (s : Scanner) : scan s st = scanCode s st := by
  simp [scan, hst.inBlockComment, hst.stringOpener]

private theorem scan_within (hst : st.BetweenElements) (s : Scanner) :
    scan s (st.within q) = scanString q s (st.within q) := by
  simp [scan, State.within, hst.inBlockComment]

theorem readsString (hst : st.BetweenElements) (hq : isQuote q = true) :
    language.ReadsString st.stringKind isPlain q (st.within q) st
      { st.within q with newlineEscape := true } := by
  have hline : (st.within q).newlineEscape = false := hst.newlineEscape
  have hkind : (st.within q).stringKind = st.stringKind := rfl
  refine ⟨hq, fun _ h => h, by decide, ?_, ?_, ?_⟩
  · intro s t endsLine hescape
    change scan _ _ = _
    rw [scan_within hst, scanString, hescape]
    cases endsLine with
    | true => simp
    | false => simp [← hline]
  · intro s t hescape hclose
    change scan _ _ = _
    have hstate : { st.within q with stringOpener := none } = st := by
      rw [State.within, ← hst.stringOpener]
    rw [scan_within hst, scanString, hescape, hkind, hclose]
    exact congrArg _ hstate
  · intro s hescape hclose
    change scan _ _ = _
    rw [scan_within hst, scanString, hescape, hkind, hclose]
    rfl

private theorem advances_quoted (hst : st.BetweenElements) (hq : isQuote q = true)
    (ht : Enclosed q t)
    (last r : Text) : ∃ tokens, StringTokens st.stringKind (q :: (t ++ [q])) tokens ∧
      language.Advances last st (q :: (t ++ [q])) tokens [q] st r := by
  have hopen : language.Advances last st [q] [⟨st.stringKind, [q]⟩] [q] (st.within q)
      (t ++ [q] ++ r) := by
    apply Language.advances_token (by simp)
    have htake : quote.Takes [q] (t ++ [q] ++ r) := takes_one hq _
    have hstring : openString? (.resume last ([q] ++ (t ++ [q] ++ r))) st = some
        (((Scanner.resume last ([q] ++ (t ++ [q] ++ r))).advance 1).emit st.stringKind,
          st.within q) := by
      rw [openString?, Scanner.token?_of_takes (s := .resume last _) rfl htake]
      simp [Scanner.advance, Scanner.resume, State.within]
    change scan _ _ = _
    rw [scan_between hst, scanCode, hstring]
    rfl
  obtain ⟨body, last', hcover, hbody⟩ :=
    (readsString hst hq).advances_body ht (stops_isPlain_of_isQuote hq r) [q]
  have htail : language.Advances [q] (st.within q) (t ++ [q])
      (body ++ [⟨st.stringKind, [q]⟩]) [q] st r :=
    hbody.trans ((readsString hst hq).advances_close last' r)
  have hquote : StringTokens st.stringKind [q] [⟨st.stringKind, [q]⟩] := .single _ [q]
  exact ⟨_, hquote.append (hcover.append hquote), hopen.trans htail⟩

private theorem StringChar.enclosed (c : StringChar) (ht : Enclosed Text.doubleQuote t) :
    Enclosed Text.doubleQuote (c.text ++ t) := by
  cases c with
  | plain c ok => exact .plain ok.2.1 ok.2.2 ht
  | short c ok => exact .escaped c ht
  | number digits four hex =>
    have hdigits : ∀ d ∈ digits, isPlain d = true :=
      fun d hd => isPlain_of_isHexDigit d (List.all_eq_true.mp hex d hd)
    exact .escaped 'u' (ht.append_plain rfl hdigits)

private theorem Quoted.enclosed (s : Quoted) : Enclosed Text.doubleQuote s.body := by
  rw [body]
  induction s.chars with
  | nil => exact .nil
  | cons c cs ih => exact c.enclosed ih

theorem Quoted.advances (s : Quoted) (hst : st.BetweenElements) (last r : Text) :
    ∃ tokens, StringTokens st.stringKind s.text tokens ∧
      language.Advances last st s.text tokens [Text.doubleQuote] st r :=
  advances_quoted hst rfl s.enclosed last r

end Highlight.Json
