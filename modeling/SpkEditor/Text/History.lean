import SpkEditor.Text.Operation

/-!
# The undo history

Transactions group edits; entries of the undo stack group transactions. The stacks
are lists with the last entry pushed first. `none` is a failed assertion, a missing
entry, or a clock that overflows.
-/

namespace SpkEditor

structure Transaction where
  id : Lamport
  editIds : List Lamport
  start : Global

/-- Times are in milliseconds. -/
structure HistoryEntry where
  transaction : Transaction
  firstEditAt : Nat
  lastEditAt : Nat
  suppressGrouping : Bool

structure History where
  baseText : List Char
  operations : List Operation
  undoStack : List HistoryEntry
  redoStack : List HistoryEntry
  transactionDepth : Nat
  groupInterval : Nat

namespace History

/-- `History::push`. -/
def push (h : History) (op : Operation) : History :=
  { h with operations := KeyedList.upsert Operation.timestamp h.operations [op] }

/-- `History::start_transaction`, with the clock after it. -/
def startTransaction (h : History) (start : Global) (now : Nat) (clock : Lamport) :
    Option (History × Lamport × Option Lamport) :=
  let h := { h with transactionDepth := h.transactionDepth + 1 }
  if h.transactionDepth = 1 then
    match clock.tick with
    | none => none
    | some (id, clock) =>
      some ({ h with undoStack := ⟨⟨id, [], start⟩, now, now, false⟩ :: h.undoStack }, clock,
        some id)
  else some (h, clock, none)

/-- `History::end_transaction`: the entry that was closed, if it is not empty. -/
def endTransaction (h : History) (now : Nat) : Option (History × Option HistoryEntry) :=
  if h.transactionDepth = 0 then none
  else
    let h := { h with transactionDepth := h.transactionDepth - 1 }
    if h.transactionDepth = 0 then
      match h.undoStack with
      | [] => none
      | entry :: stack =>
        if entry.transaction.editIds = [] then some ({ h with undoStack := stack }, none)
        else
          let entry := { entry with lastEditAt := now }
          some ({ h with redoStack := [], undoStack := entry :: stack }, some entry)
    else some (h, none)

/-- `History::group_trailing`: merge the last `n` entries into the one before them. -/
def groupTrailing (h : History) (n : Nat) : History :=
  match h.undoStack.drop n with
  | [] => { h with undoStack := [] }
  | last :: stack =>
    let merged := h.undoStack.take n
    let last :=
      { last with
        transaction :=
          { last.transaction with
            editIds := last.transaction.editIds ++
              merged.reverse.flatMap fun e => e.transaction.editIds }
        lastEditAt := match merged with
          | [] => last.lastEditAt
          | entry :: _ => entry.lastEditAt }
    { h with undoStack := last :: stack }

/-- How many entries are close enough in time to be merged into the one before. -/
def groupCount (interval : Nat) : HistoryEntry → List HistoryEntry → Nat
  | _, [] => 0
  | entry, prev :: stack =>
    if !prev.suppressGrouping && entry.firstEditAt - prev.lastEditAt < interval then
      groupCount interval prev stack + 1
    else 0

/-- `History::group`. -/
def group (h : History) : History :=
  match h.undoStack with
  | [] => h.groupTrailing 0
  | entry :: stack => h.groupTrailing (groupCount h.groupInterval entry stack)

/-- How many entries stand after the one of a transaction, if grouping may reach it. -/
def countUntil (transactionId : Lamport) : List HistoryEntry → Option Nat
  | [] => none
  | entry :: stack =>
    if entry.transaction.id = transactionId then some 0
    else if entry.suppressGrouping then none
    else (countUntil transactionId stack).map (· + 1)

/-- `History::group_until`. -/
def groupUntil (h : History) (transactionId : Lamport) : History :=
  match countUntil transactionId h.undoStack with
  | none => h
  | some n => h.groupTrailing n

/-- `History::finalize_last_transaction`. -/
def finalizeLastTransaction (h : History) : History :=
  match h.undoStack with
  | [] => h
  | entry :: stack => { h with undoStack := { entry with suppressGrouping := true } :: stack }

/-- `History::push_undo`: file an edit under the current transaction. -/
def pushUndo (h : History) (opId : Lamport) : Option History :=
  if h.transactionDepth = 0 then none
  else
    match h.operations.find? (fun op => op.timestamp = opId) with
    | some (.edit _) =>
      match h.undoStack with
      | [] => none
      | entry :: stack =>
        let transaction :=
          { entry.transaction with editIds := entry.transaction.editIds ++ [opId] }
        some { h with undoStack := { entry with transaction := transaction } :: stack }
    | _ => some h

/-- `History::pop_undo`. -/
def popUndo (h : History) : Option (History × Option HistoryEntry) :=
  if h.transactionDepth ≠ 0 then none
  else
    match h.undoStack with
    | [] => some (h, none)
    | entry :: stack =>
      some ({ h with undoStack := stack, redoStack := entry :: h.redoStack }, some entry)

/-- `History::pop_redo`. -/
def popRedo (h : History) : Option (History × Option HistoryEntry) :=
  if h.transactionDepth ≠ 0 then none
  else
    match h.redoStack with
    | [] => some (h, none)
    | entry :: stack =>
      some ({ h with redoStack := stack, undoStack := entry :: h.undoStack }, some entry)

/-- The entries down to the one of a transaction, and the rest. -/
def splitUntil (transactionId : Lamport) :
    List HistoryEntry → Option (List HistoryEntry × List HistoryEntry)
  | [] => none
  | entry :: stack =>
    if entry.transaction.id = transactionId then some ([entry], stack)
    else (splitUntil transactionId stack).map fun r => (entry :: r.1, r.2)

/-- `History::remove_from_undo`. -/
def removeFromUndo (h : History) (transactionId : Lamport) :
    Option (History × Option HistoryEntry) :=
  if h.transactionDepth ≠ 0 then none
  else
    match h.undoStack.find? (fun e => e.transaction.id = transactionId) with
    | none => some (h, none)
    | some entry =>
      some ({ h with
        undoStack := h.undoStack.eraseP fun e => e.transaction.id = transactionId
        redoStack := entry :: h.redoStack }, some entry)

/-- `History::remove_from_undo_until`: the entries moved, in the order they are undone. -/
def removeFromUndoUntil (h : History) (transactionId : Lamport) :
    Option (History × List HistoryEntry) :=
  if h.transactionDepth ≠ 0 then none
  else
    match splitUntil transactionId h.undoStack with
    | none => some (h, [])
    | some (moved, stack) =>
      some ({ h with undoStack := stack, redoStack := moved.reverse ++ h.redoStack }, moved)

/-- `History::remove_from_redo`: the entries moved, in the order they are redone. -/
def removeFromRedo (h : History) (transactionId : Lamport) :
    Option (History × List HistoryEntry) :=
  if h.transactionDepth ≠ 0 then none
  else
    match splitUntil transactionId h.redoStack with
    | none => some (h, [])
    | some (moved, stack) =>
      some ({ h with redoStack := stack, undoStack := moved.reverse ++ h.undoStack }, moved)

end History

end SpkEditor
