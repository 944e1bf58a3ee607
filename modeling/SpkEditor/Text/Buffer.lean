import SpkEditor.Text.Edit
import SpkEditor.Text.Undo
import SpkEditor.Text.History

/-!
# Buffers

A replica: its snapshot, its undo history, the operations it cannot apply yet, its
clock, and the patches its subscribers have not read. Every operation that can panic
returns an `Option`.
-/

namespace SpkEditor

/-! ## Offsets -/

def startsChar (b : UInt8) : Bool := b < 128 || 192 ≤ b

/-- `Rope::is_char_boundary`. -/
def isCharBoundary (text : List UInt8) (offset : Nat) : Bool :=
  match text[offset]? with
  | none => offset == text.length
  | some b => startsChar b

/-- Step back to the closest character boundary. -/
def floorFrom (text : List UInt8) : Nat → Nat
  | 0 => 0
  | offset + 1 => if isCharBoundary text (offset + 1) then offset + 1 else floorFrom text offset

/-- `Rope::floor_char_boundary`. -/
def floorCharBoundary (text : List UInt8) (offset : Nat) : Nat :=
  if text.length ≤ offset then text.length else floorFrom text offset

/-- `usize::to_offset`. -/
def BufferSnapshot.toOffset (s : BufferSnapshot) (offset : Nat) : Nat :=
  if isCharBoundary s.visibleText offset then offset else floorCharBoundary s.visibleText offset

/-! ## Buffers -/

structure Buffer where
  snapshot : BufferSnapshot
  history : History
  deferredOps : OperationQueue
  deferredReplicas : List Nat
  lamportClock : Lamport
  subscriptions : List Patch

namespace Buffer

def defaultGroupInterval : Profile → Nat
  | .test => 0
  | .release => 300

def baseFragments (cfg : Profile) : Nat → List Char → Nat → Locator → List Fragment
  | 0, _, _, _ => []
  | fuel + 1, text, insertionOffset, prevLocator =>
    if text = [] then []
    else
      let chunk :=
        if byteLen text ≤ cfg.maxInsertionLen then (text, [])
        else splitFloor cfg.maxInsertionLen text
      let id := Locator.between prevLocator Locator.max
      { id := id
        timestamp := Lamport.new ReplicaId.LOCAL
        insertionOffset := insertionOffset
        len := byteLen chunk.1
        visible := true
        deletions := []
        maxUndos := Global.new } ::
        baseFragments cfg fuel chunk.2 (insertionOffset + byteLen chunk.1) id

/-- `Buffer::new`. -/
def new (cfg : Profile) (replicaId remoteId : Nat) (baseText : List Char) : Buffer :=
  let text := normalize baseText
  let fragments := baseFragments cfg text.length text 0 Locator.min
  let timestamp := Lamport.new ReplicaId.LOCAL
  { snapshot :=
      { visibleText := utf8 text
        deletedText := []
        fragments := fragments
        insertions := fragments.map .new
        insertionSlices := []
        undoMap := []
        version := if text = [] then Global.new else Global.new.observe timestamp
        remoteId := remoteId
        replicaId := replicaId }
    history :=
      { baseText := text
        operations := []
        undoStack := []
        redoStack := []
        transactionDepth := 0
        groupInterval := defaultGroupInterval cfg }
    deferredOps := []
    deferredReplicas := []
    lamportClock :=
      if text = [] then Lamport.new replicaId else (Lamport.new replicaId).observe timestamp
    subscriptions := [] }

/-! ### Subscriptions -/

/-- `publish`: every subscriber composes the patch onto what it has not read. -/
def publish (b : Buffer) (patch : Patch) : Buffer :=
  { b with subscriptions := b.subscriptions.map fun p => p.compose patch }

/-- `subscribe`: the subscription is the index of its patch. -/
def subscribe (b : Buffer) : Buffer := { b with subscriptions := b.subscriptions ++ [[]] }

/-- `Subscription::consume`: take the patch. -/
def consume (b : Buffer) (subscription : Nat) : Buffer × Patch :=
  ({ b with subscriptions := b.subscriptions.set subscription [] },
    b.subscriptions.getD subscription [])

/-! ### Transactions -/

/-- `start_transaction_at`. -/
def startTransactionAt (b : Buffer) (now : Nat) : Option (Buffer × Option Lamport) :=
  match b.history.startTransaction b.snapshot.version now b.lamportClock with
  | none => none
  | some (history, clock, id) => some ({ b with history := history, lamportClock := clock }, id)

/-- `end_transaction_at`. -/
def endTransactionAt (b : Buffer) (now : Nat) : Option Buffer :=
  match b.history.endTransaction now with
  | none => none
  | some (history, none) => some { b with history := history }
  | some (history, some _) => some { b with history := history.group }

/-- `finalize_last_transaction`. -/
def finalizeLastTransaction (b : Buffer) : Buffer :=
  { b with history := b.history.finalizeLastTransaction }

/-- `group_until_transaction`. -/
def groupUntilTransaction (b : Buffer) (transactionId : Lamport) : Buffer :=
  { b with history := b.history.groupUntil transactionId }

/-- `set_group_interval`. -/
def setGroupInterval (b : Buffer) (interval : Nat) : Buffer :=
  { b with history := { b.history with groupInterval := interval } }

/-! ### Local operations -/

/-- The part of `edit` between opening and closing its transaction. -/
def editInTransaction (cfg : Profile) (b : Buffer) (edits : List (Range × List Char)) :
    Option (Buffer × Operation) :=
  match b.lamportClock.tick with
  | none => none
  | some (timestamp, clock) =>
  let edits := edits.map fun e =>
    (⟨b.snapshot.toOffset e.1.start, b.snapshot.toOffset e.1.stop⟩, e.2)
  match b.snapshot.applyLocalEdit cfg edits timestamp with
  | none => none
  | some (snapshot, patch, op) =>
  match (b.history.push (.edit op)).pushUndo timestamp with
  | none => none
  | some history =>
    some ({ b.publish patch with
      snapshot := { snapshot with version := snapshot.version.observe timestamp }
      history := history
      lamportClock := clock }, .edit op)

/-- `edit`. It opens a transaction at `startedAt` and closes it at `endedAt`. -/
def edit (cfg : Profile) (b : Buffer) (edits : List (Range × List Char))
    (startedAt endedAt : Nat) : Option (Buffer × Operation) :=
  match b.startTransactionAt startedAt with
  | none => none
  | some (b, _) =>
  match b.editInTransaction cfg edits with
  | none => none
  | some (b, op) => (b.endTransactionAt endedAt).map fun b => (b, op)

/-- `undo_operations`. -/
def undoOperations (b : Buffer) (counts : List (Lamport × Nat)) : Option (Buffer × Operation) :=
  match b.lamportClock.tick with
  | none => none
  | some (timestamp, clock) =>
    let undo : UndoOperation := ⟨timestamp, b.snapshot.version, counts⟩
    let r := { b.snapshot with version := b.snapshot.version.observe timestamp }.applyUndo undo
    some ({ b.publish r.2 with snapshot := r.1, lamportClock := clock }, .undo undo)

/-- `undo_or_redo`: count each edit of the transaction once more. -/
def undoOrRedo (b : Buffer) (transaction : Transaction) : Option (Buffer × Operation) :=
  let counts := transaction.editIds.dedup.map fun e => (e, b.snapshot.undoMap.undoCount e + 1)
  match b.undoOperations counts with
  | none => none
  | some (b, op) => some ({ b with history := b.history.push op }, op)

/-- `undo_or_redo` on one transaction after another. -/
def undoOrRedoAll : List HistoryEntry → Buffer → Option (Buffer × List Operation)
  | [], b => some (b, [])
  | entry :: entries, b =>
    match b.undoOrRedo entry.transaction with
    | none => none
    | some (b, op) => (undoOrRedoAll entries b).map fun r => (r.1, op :: r.2)

/-- The tail of `undo` and `redo`: act on the entry the history gave back, if any. -/
def actOn (b : Buffer) (r : Option (History × Option HistoryEntry)) :
    Option (Buffer × Option Operation) :=
  match r with
  | none => none
  | some (history, none) => some ({ b with history := history }, none)
  | some (history, some entry) =>
    match { b with history := history }.undoOrRedo entry.transaction with
    | none => none
    | some (b, op) => some (b, some op)

/-- `undo`. -/
def undo (b : Buffer) : Option (Buffer × Option Operation) := b.actOn b.history.popUndo

/-- `redo`. -/
def redo (b : Buffer) : Option (Buffer × Option Operation) := b.actOn b.history.popRedo

/-- `undo_transaction`. -/
def undoTransaction (b : Buffer) (transactionId : Lamport) : Option (Buffer × Option Operation) :=
  b.actOn (b.history.removeFromUndo transactionId)

/-- `undo_to_transaction`. -/
def undoToTransaction (b : Buffer) (transactionId : Lamport) :
    Option (Buffer × List Operation) :=
  match b.history.removeFromUndoUntil transactionId with
  | none => none
  | some (history, entries) => undoOrRedoAll entries { b with history := history }

/-- `redo_to_transaction`. -/
def redoToTransaction (b : Buffer) (transactionId : Lamport) :
    Option (Buffer × List Operation) :=
  match b.history.removeFromRedo transactionId with
  | none => none
  | some (history, entries) => undoOrRedoAll entries { b with history := history }

/-! ### Remote operations -/

/-- `can_apply_op`. -/
def canApplyOp (b : Buffer) (op : Operation) : Bool :=
  !b.deferredReplicas.contains op.replicaId && b.snapshot.version.observedAll op.version

/-- The end of `apply_op`: note that an operation has been applied. -/
def observe (b : Buffer) (timestamp : Lamport) : Buffer :=
  { b with
    snapshot := { b.snapshot with version := b.snapshot.version.observe timestamp }
    lamportClock := b.lamportClock.observe timestamp }

/-- `apply_op`. An operation that has been observed is not applied again. -/
def applyOp (cfg : Profile) (b : Buffer) (op : Operation) : Option Buffer :=
  if b.snapshot.version.observed op.timestamp then some b
  else
    match op with
    | .edit edit =>
      match b.snapshot.applyRemoteEdit cfg edit with
      | none => none
      | some (snapshot, none) => some ({ b with snapshot := snapshot }.observe edit.timestamp)
      | some (snapshot, some patch) =>
        some ({ b.publish patch with snapshot := snapshot }.observe edit.timestamp)
    | .undo undo =>
      let r := b.snapshot.applyUndo undo
      some ({ b.publish r.2 with snapshot := r.1 }.observe undo.timestamp)

/-- Apply an operation, or put it off together with everything later from its replica. -/
def applyOrDefer (cfg : Profile) (b : Buffer) (op : Operation) (deferred : List Operation) :
    Option (Buffer × List Operation) :=
  if b.canApplyOp op then (b.applyOp cfg op).map fun b => (b, deferred)
  else some ({ b with deferredReplicas := op.replicaId :: b.deferredReplicas }, deferred ++ [op])

/-- The loop of `apply_ops`, with the operations put off so far. -/
def receiveOps (cfg : Profile) :
    List Operation → Buffer → List Operation → Option (Buffer × List Operation)
  | [], b, deferred => some (b, deferred)
  | op :: ops, b, deferred =>
    match { b with history := b.history.push op }.applyOrDefer cfg op deferred with
    | none => none
    | some (b, deferred) => receiveOps cfg ops b deferred

/-- The loop of `flush_deferred_ops`, with the operations put off again. -/
def retryOps (cfg : Profile) :
    List Operation → Buffer → List Operation → Option (Buffer × List Operation)
  | [], b, deferred => some (b, deferred)
  | op :: ops, b, deferred =>
    match b.applyOrDefer cfg op deferred with
    | none => none
    | some (b, deferred) => retryOps cfg ops b deferred

/-- `flush_deferred_ops`. -/
def flushDeferredOps (cfg : Profile) (b : Buffer) : Option Buffer :=
  match retryOps cfg b.deferredOps { b with deferredReplicas := [], deferredOps := [] } [] with
  | none => none
  | some (b, deferred) => some { b with deferredOps := b.deferredOps.insert deferred }

/-- `apply_ops`. -/
def applyOps (cfg : Profile) (b : Buffer) (ops : List Operation) : Option Buffer :=
  match receiveOps cfg ops b [] with
  | none => none
  | some (b, deferred) =>
    { b with deferredOps := b.deferredOps.insert deferred }.flushDeferredOps cfg

def text (b : Buffer) : List UInt8 := b.snapshot.visibleText

end Buffer

end SpkEditor
