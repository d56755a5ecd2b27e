import Highlight.Css.Language
import Highlight.Html.State
import Highlight.JavaScript.Language
/-! # HTML

The contents of `script` and `style` elements are read by the lexers of their languages, up
to the closing tag of the element.
-/
namespace Highlight.Html

open Lexeme Pattern

def commentOpen : Text := "<!--".toList

def commentClose : Text := "-->".toList

/-- A named, decimal or hexadecimal character reference. -/
def entity : Pattern :=
  all [char '&',
    any [many1 Char.isAlphanum, seq (char '#') (many1 Char.isDigit),
      all [char '#', oneOf ['x', 'X'], many1 isHexDigit]],
    optional (char ';')]

def quotedValueBody : Pattern := many1 fun c => !(isQuote c || c == '&')

def bareValue : Pattern := many1 fun c => !(isQuote c || c == '>' || c == '&' || Text.isBlank c)

def attributeName : Pattern :=
  many1 fun c => !(isQuote c || c == '=' || c == '>' || c == '/' || Text.isBlank c)

def equals : Pattern := all [optionalBlanks, char '=', optionalBlanks]

def tagOpen : Pattern := seq (char '<') (optional (char '/'))

def tagName : Pattern :=
  many1 fun c => !(isQuote c || c == '<' || c == '>' || c == '/' || Text.isBlank c)

def plainText : Pattern := many1 fun c => !(c == '<' || c == '>' || c == '&')

/-- The text begins with the closing tag of an element, in any case of letters. -/
def beginsClosingTag (name text : Text) : Bool :=
  let mark := '<' :: '/' :: name
  Text.lowercase (text.take mark.length) == mark &&
    (text.drop mark.length).head?.all fun c => c == '>' || c == '/' || Text.isBlank c

/-- Offset of the first closing tag of an element. -/
def findClosingTag? (name : Text) : Text → Option Nat
  | [] => none
  | c :: cs =>
    if beginsClosingTag name (c :: cs) then some 0 else (findClosingTag? name cs).map (· + 1)

def Embedded.tokenize (line : Text) : Embedded → List Token × Embedded
  | .javaScript st =>
    let result := JavaScript.language.tokenizeLine line st
    (result.tokens, .javaScript result.outbound)
  | .css st =>
    let result := Css.language.tokenizeLine line st
    (result.tokens, .css result.outbound)

def scanQuotedValue (quote : Char) (s : Scanner) (st : State) : Scanner × State :=
  match s.tokenChar? .string quote with
  | some s => (s, { st with inAttributeValue := false, valueOpener := none })
  | none => ((s.accept (alt quotedValueBody (one fun _ => true))).emit .string, st)

def endTag? (s : Scanner) (st : State) : Option (Scanner × State) :=
  (s.tokenChar? .syntaxSymbol '>').map (·, st.closeTag)

def openValue? (s : Scanner) (st : State) : Option (Scanner × State) :=
  (s.token? .string quote).map fun s => (s, { st with valueOpener := s.lastMatch.head? })

/-- One step where an attribute value starts or inside one without quotes. -/
def scanBareValue (s : Scanner) (st : State) : Scanner × State :=
  (endTag? s st
    <|> (s.token? .whitespace blanks).map (·, { st with inAttributeValue := false })
    <|> openValue? s st
    <|> (s.token? .string bareValue).map (·, st)).getD (s, st)

def assignedAttribute? (s : Scanner) (st : State) : Option (Scanner × State) :=
  (s.tokenBefore? .identifier attributeName equals).map fun s =>
    ((s.accept equals).emit .syntaxSymbol, { st with inAttributeValue := true })

def scanTag (s : Scanner) (st : State) : Scanner × State :=
  (assignedAttribute? s st
    <|> (s.token? .identifier attributeName).map (·, st)
    <|> (s.tokenText? .syntaxSymbol "/>".toList).map (·, { st with inTag := false })
    <|> endTag? s st
    <|> (s.token? .whitespace blanks).map (·, st)).getD (s, st)

def openComment? (s : Scanner) (st : State) : Option (Scanner × State) :=
  (s.tokenText? .comment commentOpen).map (·, { st with inBlockComment := true })

def openTag? (s : Scanner) (st : State) : Option (Scanner × State) :=
  (s.tokenBefore? .syntaxSymbol tagOpen tagName).map fun s =>
    let closingTag := s.lastMatch == ['<', '/']
    let s := s.accept tagName
    (s.emit .keyword, { st with closingTag, inTag := true, tagName := some s.lastMatch.lowercase })

def scanContent (s : Scanner) (st : State) : Scanner × State :=
  (openComment? s st <|> openTag? s st <|> (s.token? .text plainText).map (·, st)).getD (s, st)

def scanMarkup (s : Scanner) (st : State) : Scanner × State :=
  if st.inBlockComment then
    let (s, ended) := scanComment commentClose s
    (s, { st with inBlockComment := !ended })
  else
    match s.token? .escape entity with
    | some s => (s, st)
    | none =>
      if st.inAttributeValue then
        match st.valueOpener with
        | some quote => scanQuotedValue quote s st
        | none => scanBareValue s st
      else if st.inTag then scanTag s st
      else scanContent s st

/-- One step inside an embedded block takes all of it that the line holds, or, where its closing
tag comes first, is a step of the markup. -/
def scanEmbedded (block : Embedded) (s : Scanner) (st : State) : Scanner × State :=
  let end? := findClosingTag? block.tagName s.rest
  let part := s.rest.take (end?.getD s.rest.length)
  if part.isEmpty then scanMarkup s (if end?.isSome then { st with embedded := none } else st)
  else
    let (tokens, block) := block.tokenize part
    (s.embed (Text.utf8Size part) tokens,
      { st with embedded := if end?.isSome then none else some block })

def scan (s : Scanner) (st : State) : Scanner × State :=
  match st.embedded with
  | some block => scanEmbedded block s st
  | none => scanMarkup s st

/-- A value without quotes ends with its line. -/
def endLine (st : State) : State :=
  if st.valueOpener.isNone then { st with inAttributeValue := false } else st

def language : Language State where
  id := "html".toList
  initial := {}
  scan := scan
  endLine := endLine

end Highlight.Html
