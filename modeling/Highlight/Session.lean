import Highlight.Editor
import Highlight.Surface
/-! # Editing sessions

An editor at work on a surface. Every event but a request and the teardown is refused once the
editor is torn down, and a refused event changes nothing.
-/
namespace Highlight

structure Session (σ : Type) where
  editor : Editor σ
  surface : Surface σ

namespace Session

variable {σ : Type} [DecidableEq σ] [Fingerprint σ]

/-- The lines to render in full: those on the screen and the padding. -/
def window (s : Session σ) : Window :=
  let range := s.surface.visibleRange
  .around (s.editor.document.lineOf range.start) (s.editor.document.lineOf range.stop)
    s.editor.settings.padding

/-- A render pass; the surface hears of it only if something changed. -/
def render (s : Session σ) (mode : RenderMode) : Session σ :=
  let pass := s.editor.renderer.render s.editor.document.lines s.window mode
  { editor := { s.editor with renderer := pass.2, lastRender := some pass.1.stats }
    surface := if pass.1.isNoop then s.surface else s.surface.receive pass.1.script }

/-- Runs the pass that waits, if one does. -/
def settle (s : Session σ) : Session σ :=
  match s.editor.pending with
  | none => s
  | some mode => Session.render { s with editor := { s.editor with pending := none } } mode

def refresh (s : Session σ) (mode : RenderMode) : Session σ :=
  Session.settle { s with editor := s.editor.request mode }

/-- Takes the selection of the surface, moved into the document. -/
def takeSelection (s : Session σ) : Session σ :=
  { s with editor := { s.editor with
    selection := s.surface.selection.clamp s.editor.document.length } }

/-- Takes text and selection of the surface. -/
def sync (s : Session σ) : Session σ :=
  Session.takeSelection { s with editor := { s.editor with
    document :=
      if s.editor.document.hasText s.surface.text then s.editor.document
      else .ofText s.surface.text } }

def whenLive {α : Type} (s : Session σ) (act : Session σ → Except EditorError α) :
    Except EditorError α :=
  if s.editor.tornDown then .error .tornDown else act s

def attach (s : Session σ) : Except EditorError (Session σ) :=
  s.whenLive fun s => .ok (s.sync.refresh .partly)

def setCode (s : Session σ) (code : Text) : Except EditorError (Session σ) :=
  s.whenLive fun s =>
    let s : Session σ :=
      { editor := { s.editor with document := .ofText code }
        surface := { s.surface with text := code } }
    .ok (s.takeSelection.refresh .partly)

/-- Follows an edit. If it changed the fingerprint of the state after the line of the cursor, all
lines from there on are out of date, and the visible ones are rendered again. -/
def followEdit (s : Session σ) : Session σ :=
  let s := s.sync
  let line := s.editor.cursor.line
  let outbound? := s.editor.outboundFingerprint? line
  let s := s.refresh .partly
  if s.editor.outboundFingerprint? line = outbound? then s
  else Session.refresh { s with editor := s.editor.markDirtyFrom line } .forceVisible

def textChanged (s : Session σ) (now : Nat) : Except EditorError (Session σ) :=
  s.whenLive fun s =>
    let s := s.followEdit
    .ok { s with editor := s.editor.touch now }

def scrolled (s : Session σ) (now : Nat) : Except EditorError (Session σ) :=
  s.whenLive fun s =>
    let s := s.refresh .partly
    .ok { s with editor := s.editor.touch now }

/-- Runs the idle sweep if it is due, and tells whether it was. -/
def pollIdle (s : Session σ) (now : Nat) : Except EditorError (Bool × Session σ) :=
  s.whenLive fun s =>
    let due := s.editor.idle.poll now
    let s : Session σ := { s with editor := { s.editor with idle := due.2 } }
    .ok (due.1, if due.1 then s.refresh .forceVisibleAndDirty else s)

def flush (s : Session σ) : Except EditorError (Session σ) := s.whenLive fun s => .ok s.settle

def setSelection (s : Session σ) (selection : Selection) : Except EditorError (Session σ) :=
  s.whenLive fun s =>
    let length := s.editor.document.length
    if length < selection.start ∨ length < selection.stop then
      .error (.invalidSelection selection.start selection.stop length)
    else
      let selection := Selection.between selection.start selection.stop
      .ok { editor := { s.editor with selection }, surface := { s.surface with selection } }

inductive Event where
  | attach
  | setCode (code : Text)
  | textChanged (now : Nat)
  | scrolled (now : Nat)
  | pollIdle (now : Nat)
  | requestRender (mode : RenderMode)
  | flush
  | setSelection (selection : Selection)
  | teardown
  deriving DecidableEq, Repr

inductive Reply where
  /-- For the events that cannot be refused. -/
  | noted
  | done
  /-- Whether the idle sweep ran. -/
  | polled (swept : Bool)
  | refused (error : EditorError)
  deriving DecidableEq, Repr

/-- A refused event leaves the session as it was. -/
def answer (s : Session σ) : Except EditorError (Session σ) → Reply × Session σ
  | .ok s => (.done, s)
  | .error e => (.refused e, s)

def handle (s : Session σ) : Event → Reply × Session σ
  | .attach => s.answer s.attach
  | .setCode code => s.answer (s.setCode code)
  | .textChanged now => s.answer (s.textChanged now)
  | .scrolled now => s.answer (s.scrolled now)
  | .pollIdle now =>
    match s.pollIdle now with
    | .ok (swept, s) => (.polled swept, s)
    | .error e => (.refused e, s)
  | .requestRender mode => (.noted, { s with editor := s.editor.request mode })
  | .flush => s.answer s.flush
  | .setSelection selection => s.answer (s.setSelection selection)
  | .teardown => (.noted, { s with editor := s.editor.teardown })

/-- The rendered lines spell the document. -/
def isSynced (s : Session σ) : Bool :=
  Text.joinLines (s.surface.rendered.map Line.text) == s.editor.code

end Session
end Highlight
