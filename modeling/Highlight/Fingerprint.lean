import Highlight.Text
/-! # Fingerprints

States are compared by numbers of 64 bits in place of the states themselves. Different states may
have the same number, so a change from the one to the other is not noticed. How states are numbered
is left open; the instances of this library hash the fields of a state word by word.
-/
namespace Highlight

class Fingerprint (σ : Type) where
  of : σ → UInt64

namespace Fingerprint

def mix (hash word : UInt64) : UInt64 := (hash + word) * 0xF1357AEA2E62A9C5

/-- The fingerprint of a state that is hashed as the number of its type and some words in turn. -/
def ofWords (type : UInt64) (words : List UInt64) : UInt64 := (type :: words).foldl mix 0

section Words

variable {α : Type}

def optionWords (words : α → List UInt64) : Option α → List UInt64
  | none => [0]
  | some a => 1 :: words a

/-- The length comes first. -/
def listWords (words : α → List UInt64) (as : List α) : List UInt64 :=
  as.length.toUInt64 :: as.flatMap words

def charWords (c : Char) : List UInt64 := [c.val.toUInt64]

def textWords (t : Text) : List UInt64 := listWords charWords t

def flagWords (b : Bool) : List UInt64 := [b.toUInt64]

end Words

instance : Fingerprint Unit := ⟨fun _ => ofWords 1 []⟩

end Fingerprint
end Highlight
