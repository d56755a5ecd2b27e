import Highlight.Size
import Highlight.Text
/-! # Structured values

Settings are read from structured values and lexer states are written as such.
-/
namespace Highlight

/-- A number is an integer only if it was written without a fraction, an exponent or a negative
zero; all others are decimals, `mantissa * 10 ^ exponent`. -/
inductive Value where
  | null
  | bool (b : Bool)
  | integer (n : Int)
  | decimal (negative : Bool) (mantissa : Nat) (exponent : Int)
  | text (t : Text)
  | list (items : List Value)
  | record (fields : List (Text × Value))

namespace Value

def ofOption {α : Type} (f : α → Value) : Option α → Value
  | none => .null
  | some a => f a

def ofChar? (c? : Option Char) : Value := ofOption (fun c => .text [c]) c?

def ofFields (fields : List (String × Value)) : Value :=
  .record (fields.map fun f => (f.1.toList, f.2))

def field? (name : Text) : Value → Option Value
  | .record fields => fields.lookup name
  | _ => none

def size? : Value → Option Nat
  | .integer n => if 0 ≤ n ∧ n ≤ maxSize then some n.toNat else none
  | _ => none

def text? : Value → Option Text
  | .text t => some t
  | _ => none

/-- A name of a choice without contents: a text, or a record whose only field is null. -/
def choice? : Value → Option Text
  | .text t => some t
  | .record [(name, .null)] => some name
  | _ => none

end Value
end Highlight
