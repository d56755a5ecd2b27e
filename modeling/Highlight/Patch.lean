import Highlight.Diff
import Highlight.Line
/-! # Patch scripts

Scripts that bring a list of shown lines up to date. The index of a patch counts in the list as
it is when the patch is applied.
-/
namespace Highlight

inductive PatchAction (σ : Type) where
  | keep
  | insert (line : Line σ)
  | remove
  | replace (line : Line σ)
  deriving DecidableEq, Repr

structure Patch (σ : Type) where
  index : Nat
  action : PatchAction σ
  deriving DecidableEq, Repr

namespace Patch

variable {σ α : Type}

def isKeep (p : Patch σ) : Bool :=
  match p.action with
  | .keep => true
  | _ => false

/-- The action for a line that was not edited: it is kept if it is still the same line. -/
def refresh (previousId : Nat) (line : Line σ) : PatchAction σ :=
  if previousId = line.id then .keep else .replace line

/-- The script for a diff, given the identities of the previous lines and the current lines. -/
def scriptFrom : Nat → List Diff.Entry → List Nat → List (Line σ) → List (Patch σ)
  | index, .same :: es, id :: ids, l :: ls =>
    ⟨index, refresh id l⟩ :: scriptFrom (index + 1) es ids ls
  | index, .modified :: es, _ :: ids, l :: ls =>
    ⟨index, .replace l⟩ :: scriptFrom (index + 1) es ids ls
  | index, .added :: es, ids, l :: ls => ⟨index, .insert l⟩ :: scriptFrom (index + 1) es ids ls
  | index, .removed :: es, _ :: ids, ls => ⟨index, .remove⟩ :: scriptFrom index es ids ls
  | _, _, _, _ => []

def script (entries : List Diff.Entry) (previous : List Nat) (current : List (Line σ)) :
    List (Patch σ) := scriptFrom 0 entries previous current

/-- The index is one that the action can take in a list of `n` lines. -/
def Fits (n : Nat) (p : Patch σ) : Prop :=
  match p.action with
  | .keep => True
  | .insert _ => p.index ≤ n
  | .remove => p.index < n
  | .replace _ => p.index < n

/-- Applies a patch to a list that shows each line in a form of its own. -/
def apply (form : Line σ → α) (shown : List α) (p : Patch σ) : List α :=
  match p.action with
  | .keep => shown
  | .insert line => shown.insertIdx p.index (form line)
  | .remove => shown.eraseIdx p.index
  | .replace line => shown.set p.index (form line)

def applyAll (form : Line σ → α) (shown : List α) (script : List (Patch σ)) : List α :=
  script.foldl (apply form) shown

structure Stats where
  keep : Nat := 0
  insert : Nat := 0
  remove : Nat := 0
  replace : Nat := 0
  deriving DecidableEq, Repr

def Stats.count (stats : Stats) (p : Patch σ) : Stats :=
  match p.action with
  | .keep => { stats with keep := stats.keep + 1 }
  | .insert _ => { stats with insert := stats.insert + 1 }
  | .remove => { stats with remove := stats.remove + 1 }
  | .replace _ => { stats with replace := stats.replace + 1 }

def Stats.ofScript (script : List (Patch σ)) : Stats := script.foldl Stats.count {}

end Patch
end Highlight
