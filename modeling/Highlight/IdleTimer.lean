/-! # Idle timer

A timer that fires once after a time without activity. It has no clock: whoever asks says what
time it is, and time may run backwards.
-/
namespace Highlight

structure IdleTimer where
  delay : Nat
  /-- The last activity since the timer fired. -/
  lastActivity : Option Nat := none
  cancelled : Bool := false
  deriving DecidableEq, Repr

namespace IdleTimer

/-- Records activity and arms the timer, unless it is cancelled. -/
def touch (t : IdleTimer) (now : Nat) : IdleTimer :=
  if t.cancelled then t else { t with lastActivity := some now }

def isArmed (t : IdleTimer) : Bool := t.lastActivity.isSome

def deadline? (t : IdleTimer) : Option Nat := t.lastActivity.map (· + t.delay)

def isDue (t : IdleTimer) (now : Nat) : Bool :=
  t.lastActivity.any fun last => t.delay ≤ now - last

/-- Fires, and so disarms, a timer that is due. -/
def poll (t : IdleTimer) (now : Nat) : Bool × IdleTimer :=
  if t.isDue now then (true, { t with lastActivity := none }) else (false, t)

def cancel (t : IdleTimer) : IdleTimer := { t with lastActivity := none, cancelled := true }

end IdleTimer
end Highlight
