import Highlight.Fingerprint
import Highlight.Value
/-! # JavaScript between lines

What JavaScript remembers between lines: the strings that are open, from the innermost outwards,
and whether a block comment is.
-/
namespace Highlight.JavaScript

structure StringContext where
  opener : Option Char := none
  inTemplate : Bool := false
  /-- The code of a placeholder of this template is being read. -/
  inPlaceholder : Bool := false
  deriving DecidableEq, Repr

/-- A placeholder starts a new level above the template that holds it. -/
structure State where
  current : StringContext := {}
  /-- The enclosing levels, the nearest first. -/
  outer : List StringContext := []
  /-- The line ended in a backslash inside a string. -/
  newlineEscape : Bool := false
  inBlockComment : Bool := false
  deriving DecidableEq, Repr

namespace State

def openString? (st : State) : Option Char :=
  if st.current.inPlaceholder then none else st.current.opener

def inString (st : State) : Bool := st.openString?.isSome

def placeholderDepth (st : State) : Nat := st.outer.length

def enterPlaceholder (st : State) : State :=
  { st with current := {}, outer := { st.current with inPlaceholder := true } :: st.outer }

def leavePlaceholder (st : State) : State :=
  match st.outer with
  | [] => st
  | context :: outer => { st with current := { context with inPlaceholder := false }, outer }

/-- A closing brace would end a placeholder. -/
def belowPlaceholder (st : State) : Bool := st.outer.head?.any (·.inPlaceholder)

end State

def StringContext.toValue (c : StringContext) : Value :=
  .ofFields [("opener", .ofChar? c.opener), ("in_template_string", .bool c.inTemplate),
    ("in_template_placeholder", .bool c.inPlaceholder)]

def State.toValue (st : State) : Value :=
  .ofFields [("current", st.current.toValue),
    ("outer", .list (st.outer.reverse.map StringContext.toValue)),
    ("newline_escape", .bool st.newlineEscape), ("in_block_comment", .bool st.inBlockComment)]

open Fingerprint

def StringContext.words (c : StringContext) : List UInt64 :=
  optionWords charWords c.opener ++ flagWords c.inTemplate ++ flagWords c.inPlaceholder

def State.words (st : State) : List UInt64 :=
  st.current.words ++ listWords StringContext.words st.outer.reverse ++
    flagWords st.newlineEscape ++ flagWords st.inBlockComment

instance : Fingerprint State := ⟨fun st => ofWords 5 st.words⟩

end Highlight.JavaScript
