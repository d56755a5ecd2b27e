import Highlight.Document
import Highlight.IdleTimer
import Highlight.Registry
import Highlight.Renderer
import Highlight.Selection
import Highlight.Settings
/-! # Editor state

The state of an editor: its document and selection, the renderer, the idle timer and the render
request that waits.
-/
namespace Highlight

inductive EditorError where
  | invalidSelection (start stop length : Nat)
  | tornDown
  | settings (error : SettingsError)
  deriving DecidableEq, Repr

namespace EditorError

def decimal (n : Nat) : Text := Nat.toDigits 10 n

def message : EditorError → Text
  | .invalidSelection start stop length =>
    "selection ".toList ++ decimal start ++ "..".toList ++ decimal stop ++
      " is outside the document (length ".toList ++ decimal length ++ ")".toList
  | .tornDown => "editor has been torn down".toList
  | .settings error => error.message

end EditorError

structure Editor (σ : Type) where
  settings : Settings
  document : Document := .ofText []
  selection : Selection := {}
  renderer : Renderer σ
  idle : IdleTimer
  /-- The mode of the pass that was asked for and has not run. -/
  pending : Option RenderMode := none
  lastRender : Option RenderStats := none
  tornDown : Bool := false

namespace Editor

variable {σ : Type}

/-- An editor with an empty document, unless the settings are wrong. -/
def create [DecidableEq σ] (settings : Settings) (T : Tokenizer σ) :
    Except EditorError (Editor σ) :=
  match settings.error? with
  | some error => .error (.settings error)
  | none => .ok {
      settings
      renderer := .ofTokenizer T settings.cacheCapacity
      idle := { delay := settings.idleDelay } }

def ofRegistry (R : Registry) (settings : Settings) : Except EditorError (Editor LexerState) :=
  create settings (R.resolve settings.language)

def languageId (e : Editor σ) : Text := e.renderer.tokenizer.id

def code (e : Editor σ) : Text := e.document.toText

def cursor (e : Editor σ) : Position := e.document.position e.selection.start

def outboundFingerprint? [Fingerprint σ] (e : Editor σ) (line : Nat) : Option UInt64 :=
  (e.renderer.lines[line]?).map fun l => Fingerprint.of l.outbound

/-- Asks for a pass. Requests that wait together come to the strongest. -/
def request (e : Editor σ) (mode : RenderMode) : Editor σ :=
  { e with pending := some (match e.pending with
    | some waiting => waiting.merge mode
    | none => mode) }

def markDirtyFrom (e : Editor σ) (line : Nat) : Editor σ :=
  { e with renderer := e.renderer.markDirtyFrom line }

def touch (e : Editor σ) (now : Nat) : Editor σ := { e with idle := e.idle.touch now }

/-- Stops the timer, forgets the waiting request and takes no more events. -/
def teardown (e : Editor σ) : Editor σ :=
  { e with idle := e.idle.cancel, pending := none, tornDown := true }

end Editor
end Highlight
