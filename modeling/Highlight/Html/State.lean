import Highlight.Css.State
import Highlight.JavaScript.State
/-! # HTML between lines

What HTML remembers between lines: where in a tag it is, and the state of the block of another
language that it is inside of.
-/
namespace Highlight.Html

inductive Embedded where
  | javaScript (state : JavaScript.State)
  | css (state : Css.State)
  deriving DecidableEq, Repr

namespace Embedded

def tagName : Embedded → Text
  | .javaScript _ => "script".toList
  | .css _ => "style".toList

/-- A block at its start, if the contents of the element are another language. -/
def forTag? (name : Text) : Option Embedded :=
  if name = "script".toList then some (.javaScript {})
  else if name = "style".toList then some (.css {})
  else none

def toValue : Embedded → Value
  | .javaScript st => .ofFields [("language", .text "javaScript".toList), ("state", st.toValue)]
  | .css st => .ofFields [("language", .text "css".toList), ("state", st.toValue)]

def words : Embedded → List UInt64
  | .javaScript st => 0 :: st.words
  | .css st => 1 :: st.words

end Embedded

structure State where
  inBlockComment : Bool := false
  /-- Between the name of a tag and its end. -/
  inTag : Bool := false
  closingTag : Bool := false
  /-- The name of the last tag, in lower case. -/
  tagName : Option Text := none
  inAttributeValue : Bool := false
  valueOpener : Option Char := none
  embedded : Option Embedded := none
  deriving DecidableEq, Repr

namespace State

def embeddedTag? (st : State) : Option Text := st.embedded.map (·.tagName)

/-- At the end of a start tag the contents of its element begin. -/
def closeTag (st : State) : State :=
  { st with
    inTag := false
    inAttributeValue := false
    valueOpener := none
    embedded := if st.closingTag then st.embedded else st.tagName.bind Embedded.forTag? }

def toValue (st : State) : Value :=
  .ofFields [("in_block_comment", .bool st.inBlockComment), ("in_tag", .bool st.inTag),
    ("closing_tag", .bool st.closingTag), ("tag_name", .ofOption .text st.tagName),
    ("in_attribute_value", .bool st.inAttributeValue),
    ("attribute_value_opener", .ofChar? st.valueOpener),
    ("embedded", .ofOption Embedded.toValue st.embedded)]

open Fingerprint

def words (st : State) : List UInt64 :=
  flagWords st.inBlockComment ++ flagWords st.inTag ++ flagWords st.closingTag ++
    optionWords textWords st.tagName ++ flagWords st.inAttributeValue ++
    optionWords charWords st.valueOpener ++ optionWords Embedded.words st.embedded

instance : Fingerprint State := ⟨fun st => ofWords 8 st.words⟩

end State
end Highlight.Html
