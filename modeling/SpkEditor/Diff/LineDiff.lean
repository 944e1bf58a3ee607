import Mathlib.Data.Finset.Sort
import Mathlib.Data.List.DropRight
import SpkEditor.Diff.StreamingDiff
import SpkEditor.Rope.Text

/-!
# The line diff

Character operations become line operations. The extents of both texts are followed, and
rows are marked on the way: a row of the old text as deleted, a row of the new one as
inserted. What is left unmarked on both sides is kept. An insertion, and a deletion that
starts at the end of a line, are held back until it is known what follows.

`none` is a panic: every subtraction that can go below zero is checked.
-/

namespace SpkEditor

open List

inductive LineOperation where
  | insert (lines : Nat)
  | delete (lines : Nat)
  | keep (lines : Nat)
  deriving DecidableEq

structure LineDiff where
  insertedNewlineAtEnd : Bool
  /-- The extent of kept and deleted text. -/
  oldEnd : Point
  /-- The extent of kept and inserted text. -/
  newEnd : Point
  /-- Deleted rows, as rows of the old text. -/
  deletedRows : Finset Nat
  /-- Inserted rows, as rows of the new text. -/
  insertedRows : Finset Nat
  bufferedInsert : List Char
  bufferedDelete : Nat

def isLineStart (p : Point) : Prop := p.column = 0

instance (p : Point) : Decidable (isLineStart p) := inferInstanceAs (Decidable (_ = _))

def isLineEnd (p : Point) (old : Rope) : Prop := lineLen old.text p.row = p.column

instance (p : Point) (old : Rope) : Decidable (isLineEnd p old) := inferInstanceAs (Decidable (_ = _))

/-- A subtraction of unsigned numbers. -/
def checkedSub (a b : Nat) : Option Nat := if b ≤ a then some (a - b) else none

/-- The characters two texts begin with in common. -/
def commonStart : List Char → List Char → List Char
  | a :: as, b :: bs => if a = b then a :: commonStart as bs else []
  | _, _ => []

/-- `text.split_at(text.rfind('\n') + 1)`. -/
def splitAfterLastNewline (text : List Char) : List Char × List Char :=
  (text.rdropWhile (· ≠ '\n'), text.rtakeWhile (· ≠ '\n'))

namespace LineDiff

/-- `LineDiff::default`. -/
def start : LineDiff := ⟨false, .zero, .zero, ∅, ∅, [], 0⟩

/-! ## Flushing -/

/-- The rows that an insertion marks, once the extent of the new text has grown by it. -/
def markInsert (d : LineDiff) (old : Rope) (newStart : Point) : LineDiff :=
  if isLineStart d.oldEnd then
    if d.newEnd.column = 0 then
      { d with insertedRows := d.insertedRows ∪ Finset.Ico newStart.row d.newEnd.row }
    else
      { d with
        deletedRows := d.deletedRows ∪ {d.oldEnd.row}
        insertedRows := d.insertedRows ∪ Finset.Icc newStart.row d.newEnd.row }
  else if isLineEnd d.oldEnd old then
    if d.bufferedInsert.head? = some '\n' then
      { d with
        insertedRows := d.insertedRows ∪ Finset.Icc (newStart.row + 1) d.newEnd.row
        insertedNewlineAtEnd := true }
    else
      { d with
        deletedRows := if d.insertedNewlineAtEnd then d.deletedRows else d.deletedRows ∪ {d.oldEnd.row}
        insertedRows := d.insertedRows ∪ Finset.Icc newStart.row d.newEnd.row }
  else
    { d with
      deletedRows := d.deletedRows ∪ {d.oldEnd.row}
      insertedRows := d.insertedRows ∪ Finset.Icc newStart.row d.newEnd.row }

/-- `flush_insert`. -/
def flushInsert (d : LineDiff) (old : Rope) : LineDiff :=
  if d.bufferedInsert = [] then d
  else
    let grown := { d with newEnd := d.newEnd.add (linesOf d.bufferedInsert) }
    { grown.markInsert old d.newEnd with bufferedInsert := [] }

/-- Where the old text is once the buffered deletion is over. -/
def deletedEnd (d : LineDiff) (old : Rope) : Point :=
  offsetToPoint old.text (pointToOffset old.text d.oldEnd + d.bufferedDelete)

/-- The rows that a deletion marks, once the extent of the old text has grown by it. -/
def markDelete (d : LineDiff) (old : Rope) (oldStart : Point) : LineDiff :=
  if isLineEnd oldStart old ∧ isLineEnd d.oldEnd old then
    { d with deletedRows := d.deletedRows ∪ Finset.Icc (oldStart.row + 1) d.oldEnd.row }
  else if isLineStart oldStart ∧ (isLineStart d.oldEnd ∧ d.oldEnd.lt old.maxPoint) ∧ d.newEnd.column = 0 then
    { d with deletedRows := d.deletedRows ∪ Finset.Ico oldStart.row d.oldEnd.row }
  else
    { d with
      insertedRows := d.insertedRows ∪ {d.newEnd.row}
      deletedRows := d.deletedRows ∪ Finset.Icc oldStart.row d.oldEnd.row }

/-- `flush_delete`. -/
def flushDelete (d : LineDiff) (old : Rope) : LineDiff :=
  if d.bufferedDelete = 0 then d
  else
    let grown := { d with oldEnd := d.deletedEnd old }
    { grown.markDelete old d.oldEnd with insertedNewlineAtEnd := false, bufferedDelete := 0 }

/-- `keep`. -/
def keep (d : LineDiff) (bytes : Nat) (old : Rope) : Option LineDiff :=
  if bytes = 0 then some d
  else do
    let lines ← (offsetToPoint old.text (pointToOffset old.text d.oldEnd + bytes)).sub d.oldEnd
    pure { d with
      oldEnd := d.oldEnd.add lines
      newEnd := d.newEnd.add lines
      insertedNewlineAtEnd := false }

/-- The characters that `trim_buffered_end` finds at the end of both buffers, the last one
first. The old ones come chunk by chunk, from the first chunk to the last, and only within
a chunk from the end. -/
def commonSuffix (d : LineDiff) (old : Rope) : List Char :=
  let oldStartOffset := pointToOffset old.text d.oldEnd
  let oldEndOffset := oldStartOffset + d.bufferedDelete
  commonStart d.bufferedInsert.reverse
    ((chunksInRange old.chunks oldStartOffset oldEndOffset).flatMap List.reverse)

/-- `trim_buffered_end`. -/
def trimBufferedEnd (d : LineDiff) (old : Rope) : Option (LineDiff × Nat) := do
  let commonSuffixLen := byteLen (d.commonSuffix old)
  let bufferedDelete ← checkedSub d.bufferedDelete commonSuffixLen
  let newLen ← checkedSub (byteLen d.bufferedInsert) commonSuffixLen
  let (bufferedInsert, _) ← splitBytes newLen d.bufferedInsert
  pure ({ d with bufferedDelete, bufferedInsert }, commonSuffixLen)

/-- `push_char_operation`. -/
def pushCharOperation (d : LineDiff) (old : Rope) : CharOperation → Option LineDiff
  | .insert text =>
    let d := d.flushDelete old
    if isLineStart d.oldEnd then
      if '\n' ∈ text then
        let (before, after) := splitAfterLastNewline text
        let d := { d with bufferedInsert := d.bufferedInsert ++ before }.flushInsert old
        some { d with bufferedInsert := d.bufferedInsert ++ after }
      else some { d with bufferedInsert := d.bufferedInsert ++ text }
    else
      let d := { d with bufferedInsert := d.bufferedInsert ++ text }
      if text.getLast? = some '\n' then some d else some (d.flushInsert old)
  | .delete bytes => do
      let d := { d with bufferedDelete := d.bufferedDelete + bytes }
      let (d, commonSuffixLen) ← d.trimBufferedEnd old
      let d := d.flushInsert old
      if 0 < commonSuffixLen ∨ ¬ isLineEnd d.oldEnd old then
        (d.flushDelete old).keep commonSuffixLen old
      else pure d
  | .keep bytes => ((d.flushDelete old).flushInsert old).keep bytes old

/-- `push_char_operations`. -/
def pushCharOperations (old : Rope) : LineDiff → List CharOperation → Option LineDiff
  | d, [] => some d
  | d, op :: ops => (d.pushCharOperation old op).bind fun d => pushCharOperations old d ops

/-- `finish`. -/
def finish (d : LineDiff) (old : Rope) : Option LineDiff := do
  let d := (d.flushInsert old).flushDelete old
  let rest ← old.maxPoint.sub d.oldEnd
  pure { d with oldEnd := old.maxPoint, newEnd := d.newEnd.add rest }

/-! ## Line operations -/

/-- One more deleted line. Operations are kept with the last one first. -/
def pushDelete : List LineOperation → List LineOperation
  | .delete lines :: ops => .delete (lines + 1) :: ops
  | ops => .delete 1 :: ops

def pushInsert : List LineOperation → List LineOperation
  | .insert lines :: ops => .insert (lines + 1) :: ops
  | ops => .insert 1 :: ops

def ahead (marks : List Nat) (row : Nat) : Nat := (marks.map fun mark => mark + 1 - row).sum

theorem ahead_mono (marks : List Nat) {row row' : Nat} (h : row ≤ row') :
    ahead marks row' ≤ ahead marks row := by
  induction marks with
  | nil => exact le_refl 0
  | cons mark marks ih =>
    simp only [ahead, map_cons, sum_cons] at ih ⊢
    omega

theorem ahead_lt {marks : List Nat} {mark row row' : Nat} (hhead : marks.head? = some mark)
    (hle : row ≤ mark) (h : row < row') : ahead marks row' < ahead marks row := by
  cases marks with
  | nil => simp at hhead
  | cons m marks =>
    have hm : m = mark := by simpa using hhead
    have := ahead_mono marks (le_of_lt h)
    simp only [ahead, map_cons, sum_cons] at this ⊢
    omega

theorem ahead_tail {marks : List Nat} {row : Nat} (hhead : marks.head? = some row) :
    ahead marks.tail (row + 1) < ahead marks row := by
  cases marks with
  | nil => simp at hhead
  | cons m marks =>
    have hm : m = row := by simpa using hhead
    have := ahead_mono marks (show row ≤ row + 1 by omega)
    simp only [ahead, map_cons, sum_cons, tail_cons] at this ⊢
    omega

theorem ahead_step {deleted inserted : List Nat} {oldRow newRow lastOld lastNew kept : Nat}
    (hmarks : ¬ (deleted = [] ∧ inserted = [])) (hnew : newRow ≤ inserted.head?.getD lastNew)
    (hold : oldRow ≤ deleted.head?.getD lastOld) (hkept : 1 ≤ kept) :
    ahead deleted (oldRow + kept) + ahead inserted (newRow + kept) <
      ahead deleted oldRow + ahead inserted newRow := by
  have hdel := ahead_mono deleted (show oldRow ≤ oldRow + kept by omega)
  have hins := ahead_mono inserted (show newRow ≤ newRow + kept by omega)
  cases hd : deleted.head? with
  | some mark =>
    rw [hd, Option.getD_some] at hold
    have := ahead_lt hd hold (show oldRow < oldRow + kept by omega)
    omega
  | none =>
    cases hi : inserted.head? with
    | some mark =>
      rw [hi, Option.getD_some] at hnew
      have := ahead_lt hi hnew (show newRow < newRow + kept by omega)
      omega
    | none => exact absurd ⟨List.head?_eq_none_iff.1 hd, List.head?_eq_none_iff.1 hi⟩ hmarks

/-- The loop of `line_operations`: the marks still to come, the rows reached, and the
operations so far. -/
def lineOperationsFrom (d : LineDiff) (deleted inserted : List Nat) (oldRow newRow : Nat)
    (ops : List LineOperation) : Option (Nat × List LineOperation) :=
  if deleted = [] ∧ inserted = [] then some (oldRow, ops)
  else if deleted.head? = some oldRow then
    lineOperationsFrom d deleted.tail inserted (oldRow + 1) newRow (pushDelete ops)
  else if inserted.head? = some newRow then
    lineOperationsFrom d deleted inserted.tail oldRow (newRow + 1) (pushInsert ops)
  else
    let nextInserted := inserted.head?.getD (d.newEnd.row + 1)
    let nextDeleted := deleted.head?.getD (d.oldEnd.row + 1)
    if newRow ≤ nextInserted ∧ oldRow ≤ nextDeleted then
      let kept := max 1 (min (nextDeleted - oldRow) (nextInserted - newRow))
      lineOperationsFrom d deleted inserted (oldRow + kept) (newRow + kept) (.keep kept :: ops)
    else none
termination_by ahead deleted oldRow + ahead inserted newRow
decreasing_by
  · have := @ahead_tail deleted oldRow ‹_›
    omega
  · have := @ahead_tail inserted newRow ‹_›
    omega
  · exact ahead_step ‹_› (And.left ‹_›) (And.right ‹_›) (le_max_left _ _)

/-- `line_operations`. -/
def lineOperations (d : LineDiff) : Option (List LineOperation) := do
  let (oldRow, ops) ← d.lineOperationsFrom d.deletedRows.sort d.insertedRows.sort 0 0 []
  let ops := if oldRow < d.oldEnd.row + 1 then .keep (d.oldEnd.row + 1 - oldRow) :: ops else ops
  pure ops.reverse

end LineDiff

def applyLineOperations : List LineOperation → List (List Char) → List (List Char) →
    Option (List (List Char) × List (List Char) × List (List Char))
  | [], old, new => some ([], old, new)
  | .keep lines :: ops, old, new =>
    if lines ≤ old.length ∧ lines ≤ new.length then
      (applyLineOperations ops (old.drop lines) (new.drop lines)).map fun r => (old.take lines ++ r.1, r.2)
    else none
  | .delete lines :: ops, old, new =>
    if lines ≤ old.length then applyLineOperations ops (old.drop lines) new else none
  | .insert lines :: ops, old, new =>
    if lines ≤ new.length then
      (applyLineOperations ops old (new.drop lines)).map fun r => (new.take lines ++ r.1, r.2)
    else none

end SpkEditor
