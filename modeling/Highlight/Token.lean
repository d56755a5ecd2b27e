import Highlight.Value
/-! # Tokens

A token is a fragment of a line with a semantic category.
-/
namespace Highlight

/-- What a fragment is; themes give the categories their colours. -/
inductive TokenKind where
  | keyword
  | identifier
  | callIdentifier
  | string
  | escape
  | comment
  | number
  | operator
  | bracket
  | whitespace
  | text
  | valueKeyword
  | syntaxSymbol
  | assignment
  | separator
  deriving DecidableEq, Repr

namespace TokenKind

def all : List TokenKind :=
  [.keyword, .identifier, .callIdentifier, .string, .escape, .comment, .number, .operator,
    .bracket, .whitespace, .text, .valueKeyword, .syntaxSymbol, .assignment, .separator]

theorem mem_all (k : TokenKind) : k ∈ all := by cases k <;> decide

/-- The stable name that theme layers use. -/
def name : TokenKind → Text
  | .keyword => "keyword".toList
  | .identifier => "identifier".toList
  | .callIdentifier => "callIdentifier".toList
  | .string => "string".toList
  | .escape => "escape".toList
  | .comment => "comment".toList
  | .number => "number".toList
  | .operator => "operator".toList
  | .bracket => "bracket".toList
  | .whitespace => "whitespace".toList
  | .text => "text".toList
  | .valueKeyword => "valueKeyword".toList
  | .syntaxSymbol => "syntaxSymbol".toList
  | .assignment => "assignment".toList
  | .separator => "separator".toList

def ofName? (n : Text) : Option TokenKind := all.find? (·.name == n)

def ofValue? (v : Value) : Option TokenKind := v.choice?.bind ofName?

theorem ofName?_name (k : TokenKind) : ofName? k.name = some k := by cases k <;> decide

end TokenKind

structure Token where
  kind : TokenKind
  text : Text
  deriving DecidableEq, Repr

namespace Token

def spell (tokens : List Token) : Text := tokens.flatMap Token.text

@[simp] theorem spell_nil : spell [] = [] := rfl

@[simp] theorem spell_cons (t : Token) (ts : List Token) :
    spell (t :: ts) = t.text ++ spell ts := rfl

@[simp] theorem spell_append (s t : List Token) : spell (s ++ t) = spell s ++ spell t := by
  simp [spell]

def width (tokens : List Token) : Nat := tokens.foldr (fun token n => token.text.length + n) 0

end Token
end Highlight
