import Highlight.Fingerprint
import Highlight.Token
/-! # JSON between lines

What JSON remembers between lines: the brackets that are open, from the innermost outwards, and
whether the next string names a member of an object.
-/
namespace Highlight.Json

inductive BracketKind where
  | object
  | array
  | expression
  deriving DecidableEq, Repr

namespace BracketKind

/-- The kind of a bracket and whether it opens. -/
def of? : Char → Option (BracketKind × Bool)
  | '{' => some (.object, true)
  | '}' => some (.object, false)
  | '[' => some (.array, true)
  | ']' => some (.array, false)
  | '(' => some (.expression, true)
  | ')' => some (.expression, false)
  | _ => none

def name : BracketKind → Text
  | .object => "object".toList
  | .array => "array".toList
  | .expression => "expression".toList

def words : BracketKind → List UInt64
  | .object => [0]
  | .array => [1]
  | .expression => [2]

end BracketKind

structure State where
  stringOpener : Option Char := none
  /-- The open brackets, the innermost first. -/
  brackets : List BracketKind := []
  /-- The line ended in a backslash inside a string. -/
  newlineEscape : Bool := false
  inBlockComment : Bool := false
  /-- The next string is the key of a member. -/
  inObjectKey : Bool := false
  deriving DecidableEq, Repr

namespace State

def innermost? (st : State) : Option BracketKind := st.brackets.head?

def inObject (st : State) : Bool := st.innermost? == some .object

def stringKind (st : State) : TokenKind := if st.inObjectKey then .identifier else .string

/-- A closing bracket closes the innermost one, of whichever kind that is. -/
def passBracket (st : State) (kind : BracketKind) (opens : Bool) : State :=
  let st := { st with brackets := if opens then kind :: st.brackets else st.brackets.tail }
  { st with inObjectKey := st.inObject }

def toValue (st : State) : Value :=
  .ofFields [("string_opener", .ofChar? st.stringOpener),
    ("brackets", .list (st.brackets.reverse.map fun b => .text b.name)),
    ("newline_escape", .bool st.newlineEscape), ("in_block_comment", .bool st.inBlockComment),
    ("in_object_key", .bool st.inObjectKey)]

open Fingerprint

def words (st : State) : List UInt64 :=
  optionWords charWords st.stringOpener ++ listWords BracketKind.words st.brackets.reverse ++
    flagWords st.newlineEscape ++ flagWords st.inBlockComment ++ flagWords st.inObjectKey

instance : Fingerprint State := ⟨fun st => ofWords 6 st.words⟩

end State
end Highlight.Json
