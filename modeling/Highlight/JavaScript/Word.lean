import Highlight.Token
/-! # Words and operators of JavaScript -/
namespace Highlight.JavaScript

def keywords : List Text :=
  ["as", "await", "break", "case", "catch", "class", "const", "continue", "debugger", "default",
    "delete", "do", "else", "enum", "export", "extends", "finally", "for", "from", "function",
    "get", "if", "implements", "import", "in", "instanceof", "interface", "let", "new", "package",
    "private", "protected", "public", "return", "set", "switch", "static", "throw", "try",
    "typeof", "var", "void", "while", "with", "yield"].map String.toList

def valueKeywords : List Text :=
  ["constructor", "false", "Infinity", "NaN", "null", "super", "this", "true",
    "undefined"].map String.toList

/-- Longer operators stand before those that they begin with, but for the two that begin with two
stars. -/
def operators : List Text :=
  ["===", "!==", "==", "!=", "=", "+=", "++", "+", "-=", "--", "-", "*=", "*", "/=", "/", "%=",
    "%", "**=", "**", "<<=", "<<", "<=", "<", ">>>=", ">>>", ">>=", ">>", ">=", ">", "&&=", "&&",
    "&=", "&", "^=", "^", "||=", "||", "|=", "|", "??=", "??"].map String.toList

def wordKind? (word : Text) : Option TokenKind :=
  if keywords.contains word then some .keyword
  else if valueKeywords.contains word then some .valueKeyword
  else none

theorem wordKind?_eq_some {word : Text} {kind : TokenKind} (h : wordKind? word = some kind) :
    kind = .keyword ∧ word ∈ keywords ∨ kind = .valueKeyword ∧ word ∈ valueKeywords := by
  rw [wordKind?] at h
  split at h
  · rename_i hlisted
    exact .inl ⟨(Option.some.inj h).symm, List.contains_iff_mem.mp hlisted⟩
  · split at h
    · rename_i hlisted
      exact .inr ⟨(Option.some.inj h).symm, List.contains_iff_mem.mp hlisted⟩
    · contradiction

theorem not_listed_of_wordKind?_eq_none {word : Text} (h : wordKind? word = none) :
    word ∉ keywords ∧ word ∉ valueKeywords := by
  rw [wordKind?] at h
  split at h
  · contradiction
  · rename_i hkeyword
    split at h
    · contradiction
    · rename_i hvalue
      exact ⟨mt List.contains_iff_mem.mpr hkeyword, mt List.contains_iff_mem.mpr hvalue⟩

end Highlight.JavaScript
