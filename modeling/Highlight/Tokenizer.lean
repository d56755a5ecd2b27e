import Highlight.Token
/-! # Line tokenizers

Tokenizers read a document line by line and hand a state from each line to the next.
-/
namespace Highlight

/-- The tokens of a line and the state handed to the next one. -/
structure LineTokens (σ : Type) where
  tokens : List Token
  outbound : σ
  deriving DecidableEq, Repr

structure Tokenizer (σ : Type) where
  id : Text
  /-- The state before the first line of a document. -/
  initial : σ
  tokenize : Text → σ → LineTokens σ

namespace Tokenizer

variable {σ : Type}

/-- Reads lines in turn, starting from a state and handing it on. -/
def thread (T : Tokenizer σ) : σ → List Text → List (LineTokens σ)
  | _, [] => []
  | st, line :: rest =>
    let result := T.tokenize line st
    result :: T.thread result.outbound rest

def document (T : Tokenizer σ) (lines : List Text) : List (LineTokens σ) :=
  T.thread T.initial lines

/-- The state behind some lines, read in turn. -/
def behind (T : Tokenizer σ) (st : σ) (lines : List Text) : σ :=
  lines.foldl (fun st line => (T.tokenize line st).outbound) st

@[simp] theorem behind_nil (T : Tokenizer σ) (st : σ) : T.behind st [] = st := rfl

@[simp] theorem behind_cons (T : Tokenizer σ) (st : σ) (line : Text) (lines : List Text) :
    T.behind st (line :: lines) = T.behind (T.tokenize line st).outbound lines := rfl

@[simp] theorem length_thread (T : Tokenizer σ) (st : σ) (lines : List Text) :
    (T.thread st lines).length = lines.length := by
  induction lines generalizing st with
  | nil => rfl
  | cons line rest ih => simp [thread, ih]

theorem thread_take (T : Tokenizer σ) (st : σ) (lines : List Text) (n : Nat) :
    T.thread st (lines.take n) = (T.thread st lines).take n := by
  induction lines generalizing st n with
  | nil => simp [thread]
  | cons line rest ih =>
    cases n with
    | zero => rfl
    | succ n => simp [thread, ih]

theorem behind_take_succ (T : Tokenizer σ) (st : σ) {lines : List Text} {i : Nat} {line : Text}
    (h : lines[i]? = some line) :
    T.behind st (lines.take (i + 1)) =
      (T.tokenize line (T.behind st (lines.take i))).outbound := by
  rw [behind, List.take_add_one, h, Option.toList_some, List.foldl_append]
  rfl

theorem getElem?_thread (T : Tokenizer σ) (st : σ) (lines : List Text) (i : Nat) :
    (T.thread st lines)[i]? =
      lines[i]?.map fun line => T.tokenize line (T.behind st (lines.take i)) := by
  induction lines generalizing st i with
  | nil => simp [thread]
  | cons line rest ih =>
    cases i with
    | zero => rfl
    | succ i => simp [thread, ih]

/-- The reading of a line depends on nothing behind it. -/
theorem getLast?_document_take (T : Tokenizer σ) {lines : List Text} {i : Nat}
    (h : i < lines.length) :
    (T.document (lines.take (i + 1))).getLast? = (T.document lines)[i]? := by
  have hlen : (T.document lines).length = lines.length := T.length_thread T.initial lines
  rw [document, thread_take, ← document, List.getLast?_eq_getElem?, List.length_take,
    List.getElem?_take, hlen, if_pos (by omega)]
  congr 1
  omega

/-- A line read by one of several tokenizers. -/
structure Leg (σ : Type) where
  tokenizer : Tokenizer σ
  inbound : σ
  result : LineTokens σ

/-- Reads each line with a tokenizer of its own and hands the state on between them. -/
def relay : σ → List (Tokenizer σ × Text) → List (Leg σ)
  | _, [] => []
  | st, (T, line) :: rest =>
    let result := T.tokenize line st
    ⟨T, st, result⟩ :: relay result.outbound rest

namespace Leg

variable [DecidableEq σ]

def startsFresh (l : Leg σ) : Bool := l.inbound == l.tokenizer.initial

def changesState (l : Leg σ) : Bool := l.result.outbound != l.inbound

end Leg
end Tokenizer
end Highlight
