import Highlight.Html.Language
import Highlight.Json.Language
import Highlight.LexerState
import Highlight.PlainText
/-! # Language registry

Registries find the tokenizer of a language by an identifier. Identifiers differ neither in the
case of their letters nor in blanks around them.
-/
namespace Highlight

inductive Builtin where
  | plainText
  | javaScript
  | css
  | html
  | json
  deriving DecidableEq, Repr

def Builtin.tokenizer : Builtin → Tokenizer LexerState
  | .plainText => PlainText.language.erased (fun _ => .unit) LexerState.unit?
  | .javaScript => JavaScript.language.erased .javaScript LexerState.javaScript?
  | .css => Css.language.erased .css LexerState.css?
  | .html => Html.language.erased .html LexerState.html?
  | .json => Json.language.erased .json LexerState.json?

/-- The entries are in the order of their identifiers. -/
structure Registry where
  entries : List (Text × Tokenizer LexerState) := []

namespace Registry

def normalize (id : Text) : Text := id.trim.lowercase

/-- Replaces the entry of an identifier or puts a new one in its place in the order. -/
def insertEntry (id : Text) (T : Tokenizer LexerState) :
    List (Text × Tokenizer LexerState) → List (Text × Tokenizer LexerState)
  | [] => [(id, T)]
  | e :: es =>
    if id = e.1 then (id, T) :: es
    else if id < e.1 then (id, T) :: e :: es
    else e :: insertEntry id T es

def register (R : Registry) (id : Text) (T : Tokenizer LexerState) : Registry :=
  { entries := insertEntry (normalize id) T R.entries }

def languageIds (R : Registry) : List Text := R.entries.map Prod.fst

def contains (R : Registry) (id : Text) : Bool := (R.entries.lookup (normalize id)).isSome

/-- Unknown identifiers are plain text. -/
def resolve (R : Registry) (id : Text) : Tokenizer LexerState :=
  (R.entries.lookup (normalize id)).getD Builtin.plainText.tokenizer

def builtinIds : List (String × Builtin) :=
  [("javascript", .javaScript), ("js", .javaScript), ("css", .css), ("html", .html),
    ("htm", .html), ("json", .json)]

/-- Adds the languages of this library under their usual identifiers. -/
def registerBuiltins (R : Registry) : Registry :=
  builtinIds.foldl (fun R entry => R.register entry.1.toList entry.2.tokenizer) R

def builtin : Registry := registerBuiltins {}

end Registry
end Highlight
