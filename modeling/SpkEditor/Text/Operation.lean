import SpkEditor.Clock.Clock
import SpkEditor.Lib.KeyedList
import SpkEditor.Lib.Utf8
import SpkEditor.Text.Patch
import Mathlib.Data.Prod.Lex

/-!
# Operations

What replicas send each other: edits, each with the version its author had seen,
the ranges it replaced and the texts it put there; and undos, each with a count per
edit. Texts are lists of characters and lengths are in bytes of their UTF-8
encoding, as for `str`.

`OperationQueue` is where a replica keeps the operations it cannot apply yet.
-/

namespace SpkEditor

/-- `LineEnding::normalize`: every `\r\n` and every other `\r` becomes `\n`. -/
def normalize : List Char → List Char
  | [] => []
  | '\r' :: '\n' :: text => '\n' :: normalize text
  | '\r' :: text => '\n' :: normalize text
  | c :: text => c :: normalize text

/-- `EditOperation`. Ranges are in offsets that count deleted text too. -/
structure EditOperation where
  timestamp : Lamport
  version : Global
  ranges : List Range
  newText : List (List Char)
  deriving DecidableEq

/-- `UndoOperation`: how often each edit has been undone or redone. -/
structure UndoOperation where
  timestamp : Lamport
  version : Global
  counts : List (Lamport × Nat)
  deriving DecidableEq

inductive Operation where
  | edit (op : EditOperation)
  | undo (op : UndoOperation)
  deriving DecidableEq

namespace Operation

def timestamp : Operation → Lamport
  | .edit op => op.timestamp
  | .undo op => op.timestamp

/-- What the author had seen. -/
def version : Operation → Global
  | .edit op => op.version
  | .undo op => op.version

def replicaId (op : Operation) : Nat := op.timestamp.replicaId

end Operation

/-! ## The queue of deferred operations -/

abbrev OperationQueue := List Operation

namespace OperationQueue

/-- Drop the operations that repeat the timestamp of the one before them; `a` is the
last one kept. -/
def dedupFrom : Operation → List Operation → List Operation
  | a, [] => [a]
  | a, b :: ops => if a.timestamp = b.timestamp then dedupFrom a ops else a :: dedupFrom b ops

/-- `Vec::dedup_by_key` on the timestamps. -/
def dedup : List Operation → List Operation
  | [] => []
  | op :: ops => dedupFrom op ops

/-- `OperationQueue::insert`. -/
def insert (queue : OperationQueue) (ops : List Operation) : OperationQueue :=
  KeyedList.upsert Operation.timestamp queue
    (dedup (KeyedList.sortByKey Operation.timestamp ops))

end OperationQueue

end SpkEditor
