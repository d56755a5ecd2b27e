import Highlight.Cache
import Highlight.PlainText
import Highlight.Value
/-! # Editor settings

Times are in microseconds.
-/
namespace Highlight

structure Settings where
  language : Text := PlainText.language.id
  /-- Lines rendered in full on either side of the visible ones. -/
  padding : Nat := 10
  /-- Time without activity before the idle sweep. -/
  idleDelay : Nat := 500000
  /-- Number of lines that the cache may hold. -/
  cacheCapacity : Nat := Cache.defaultCapacity
  deriving DecidableEq, Repr

inductive SettingsError where
  | zeroCacheCapacity
  | zeroIdleDelay
  deriving DecidableEq, Repr

def SettingsError.message : SettingsError → Text
  | .zeroCacheCapacity => "cache capacity must be at least one line".toList
  | .zeroIdleDelay => "idle delay must be non-zero".toList

namespace Settings

def microsecondsPerMillisecond : Nat := 1000

def ofLanguage (language : Text) : Settings := { language }

def error? (s : Settings) : Option SettingsError :=
  if s.cacheCapacity = 0 then some .zeroCacheCapacity
  else if s.idleDelay = 0 then some .zeroIdleDelay
  else none

/-- A part that is given must be readable; one that is not has its default. -/
def part {α : Type} (read? : Value → Option α) (default : α) : Option Value → Option α
  | none => some default
  | some v => read? v

/-- Settings from their parts, the delay in milliseconds. -/
def ofParts? (language? padding? idleDelay? cacheCapacity? : Option Value) : Option Settings := do
  let defaults : Settings := {}
  let language ← part Value.text? defaults.language language?
  let padding ← part Value.size? defaults.padding padding?
  let idleDelay ← part (fun v => v.size?.map (· * microsecondsPerMillisecond)) defaults.idleDelay
    idleDelay?
  let cacheCapacity ← part Value.size? defaults.cacheCapacity cacheCapacity?
  some { language, padding, idleDelay, cacheCapacity }

/-- Settings are written as a record, or as a list of the parts in order. -/
def ofValue? : Value → Option Settings
  | .record fields =>
    ofParts? (fields.lookup "language".toList) (fields.lookup "lazy_render_padding".toList)
      (fields.lookup "idle_delay_ms".toList) (fields.lookup "cache_capacity".toList)
  | .list parts =>
    if parts.length ≤ 4 then ofParts? parts[0]? parts[1]? parts[2]? parts[3]? else none
  | _ => none

end Settings
end Highlight
