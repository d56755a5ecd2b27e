import Highlight.Fingerprint
import Highlight.Value
/-! # What CSS remembers between lines -/
namespace Highlight.Css

structure State where
  inBlockComment : Bool := false
  /-- The line started an at-rule. -/
  inAtRule : Bool := false
  inRule : Bool := false
  inAttributeSelector : Bool := false
  /-- The token before was a comparator, so a bare word is its value. -/
  afterComparator : Bool := false
  stringOpener : Option Char := none
  deriving DecidableEq, Repr

namespace State

/-- Names are values here and selectors elsewhere. -/
def inValue (st : State) : Bool := st.inRule || st.inAtRule || st.inAttributeSelector

def toValue (st : State) : Value :=
  .ofFields [("in_block_comment", .bool st.inBlockComment), ("in_at_rule", .bool st.inAtRule),
    ("in_rule", .bool st.inRule), ("in_attribute_selector", .bool st.inAttributeSelector),
    ("after_comparator", .bool st.afterComparator),
    ("string_opener", .ofChar? st.stringOpener)]

open Fingerprint

def words (st : State) : List UInt64 :=
  flagWords st.inBlockComment ++ flagWords st.inAtRule ++ flagWords st.inRule ++
    flagWords st.inAttributeSelector ++ flagWords st.afterComparator ++
    optionWords charWords st.stringOpener

instance : Fingerprint State := ⟨fun st => ofWords 7 st.words⟩

end State
end Highlight.Css
