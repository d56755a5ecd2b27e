import Highlight.Html.State
import Highlight.Json.State
import Highlight.Language
/-! # Lexer states

The states of all tokenizers in one type, so that tokenizers of different languages can stand in
one registry and hand states to each other. States of different languages are never equal.
-/
namespace Highlight

/-- The first four are for tokenizers whose memory is nothing, a number, a text or a flag. -/
inductive LexerState where
  | unit
  | number (n : Nat)
  | text (t : Text)
  | flag (b : Bool)
  | javaScript (st : JavaScript.State)
  | json (st : Json.State)
  | css (st : Css.State)
  | html (st : Html.State)
  deriving DecidableEq, Repr

namespace LexerState

def toValue : LexerState → Value
  | .unit => .null
  | .number n => .integer n
  | .text t => .text t
  | .flag b => .bool b
  | .javaScript st => st.toValue
  | .json st => st.toValue
  | .css st => st.toValue
  | .html st => st.toValue

open Fingerprint

def fingerprint : LexerState → UInt64
  | .unit => of ()
  | .number n => ofWords 2 [n.toUInt64]
  | .text t => ofWords 3 (textWords t)
  | .flag b => ofWords 4 (flagWords b)
  | .javaScript st => of st
  | .json st => of st
  | .css st => of st
  | .html st => of st

instance : Fingerprint LexerState := ⟨fingerprint⟩

def unit? : LexerState → Option Unit
  | .unit => some ()
  | _ => none

def javaScript? : LexerState → Option JavaScript.State
  | .javaScript st => some st
  | _ => none

def json? : LexerState → Option Json.State
  | .json st => some st
  | _ => none

def css? : LexerState → Option Css.State
  | .css st => some st
  | _ => none

def html? : LexerState → Option Html.State
  | .html st => some st
  | _ => none

end LexerState

/-- The tokenizer of a language over the states of all languages. From the state of another
language it starts afresh. -/
def Language.erased {σ : Type} (L : Language σ) (wrap : σ → LexerState)
    (unwrap? : LexerState → Option σ) : Tokenizer LexerState where
  id := L.id
  initial := wrap L.initial
  tokenize := fun line inbound =>
    let result := L.tokenizeLine line ((unwrap? inbound).getD L.initial)
    { tokens := result.tokens, outbound := wrap result.outbound }

end Highlight
