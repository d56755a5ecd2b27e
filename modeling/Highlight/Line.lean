import Highlight.Fingerprint
import Highlight.Tokenizer
/-! # Rendered lines -/
namespace Highlight

/-- A line with its tokens. A line that is kept from one pass to the next keeps its identity;
every other line gets one that no line had before. -/
structure Line (σ : Type) where
  id : Nat
  text : Text
  /-- Of the state that the tokens were computed from. -/
  inboundFingerprint : UInt64
  tokens : List Token
  /-- The state handed to the next line. -/
  outbound : σ
  /-- The tokens are out of date or were never computed. -/
  dirty : Bool
  deriving DecidableEq, Repr

namespace Line

variable {σ : Type}

def markDirty (l : Line σ) : Line σ := { l with dirty := true }

variable [Fingerprint σ]

/-- A line whose tokens are not computed yet. The state passes through it unchanged. -/
def placeholder (id : Nat) (text : Text) (inbound : σ) : Line σ where
  id := id
  text := text
  inboundFingerprint := Fingerprint.of inbound
  tokens := if text.isEmpty then [] else [⟨.text, text⟩]
  outbound := inbound
  dirty := true

def rendered (id : Nat) (text : Text) (inbound : σ) (result : LineTokens σ) : Line σ where
  id := id
  text := text
  inboundFingerprint := Fingerprint.of inbound
  tokens := result.tokens
  outbound := result.outbound
  dirty := false

end Line
end Highlight
