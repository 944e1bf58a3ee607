import SpkEditor.Text.Patch
import SpkEditor.Rope.Text

/-!
# Staging hunks

`stage_or_unstage_hunks_impl`: which bytes are written to the index when hunks of the diff between
the head and the buffer are staged or unstaged. The hunks asked for become pending; every pending
hunk is merged with the hunks of the diff between the index and the buffer that it meets, and with
the pending hunks that these meet, and what has been merged is replaced in the index as one.

Texts are bytes and anchors are the offsets they stand at: all diffs are of one version of the
buffer. `none` is a panic.
-/

namespace SpkEditor.Staging

/-- A text in a file. -/
abbrev Bytes := List UInt8

structure Hunk where
  buffer : Range
  base : Range
  deriving DecidableEq

/-- `DiffHunkSecondaryStatus`. -/
inductive SecondaryStatus where
  | hasSecondaryHunk
  | overlapsWithSecondaryHunk
  | noSecondaryHunk
  | secondaryHunkAdditionPending
  | secondaryHunkRemovalPending
  deriving DecidableEq

/-- `PendingHunk`, without the version of the buffer. -/
structure PendingHunk extends Hunk where
  newStatus : SecondaryStatus

/-- `DiffHunk`, as far as staging reads it. -/
structure DiffHunk extends Hunk where
  secondaryStatus : SecondaryStatus
  deriving DecidableEq

/-- The status of a hunk that is about to be staged, or unstaged. -/
def newStatusOf (stage : Bool) : SecondaryStatus :=
  if stage then .secondaryHunkRemovalPending else .secondaryHunkAdditionPending

/-- There is nothing to do for a hunk with this status. -/
def isSettled (stage : Bool) (status : SecondaryStatus) : Bool :=
  (stage && status == .noSecondaryHunk) || (!stage && status == .hasSecondaryHunk)

/-- The first loop: pending hunks before the one asked for are kept, those it meets are dropped. -/
def mergeRequests (stage : Bool) : List DiffHunk → List PendingHunk → List PendingHunk
  | [], old => old
  | request :: requests, old =>
    let preceding := old.takeWhile fun p => p.buffer.stop < request.buffer.start
    let rest := old.dropWhile fun p => p.buffer.stop < request.buffer.start
    let rest := rest.dropWhile fun p => p.buffer.start ≤ request.buffer.stop
    let pushed :=
      if isSettled stage request.secondaryStatus then []
      else [⟨request.toHunk, newStatusOf stage⟩]
    preceding ++ (pushed ++ mergeRequests stage requests rest)

/-! ## Merging with the unstaged hunks -/

/-- What the second loop knows of the hunk it is at: its range in the buffer, where it starts in
the index, and where the last unstaged hunk that it has passed ends in both. -/
structure Merging where
  range : Range
  indexStart : Nat
  prevBufferEnd : Nat
  prevBaseEnd : Nat

def mergeUnstaged : List Hunk → Merging → List Hunk × Merging
  | [], m => ([], m)
  | u :: unstaged, m =>
    if u.buffer.start ≤ m.range.stop then
      mergeUnstaged unstaged
        { range := ⟨min m.range.start u.buffer.start, max m.range.stop u.buffer.stop⟩
          indexStart := min m.indexStart u.base.start
          prevBufferEnd := u.buffer.stop
          prevBaseEnd := u.base.stop }
    else (u :: unstaged, m)

def mergeHunks : List PendingHunk → List Hunk → Merging → List PendingHunk × List Hunk × Merging
  | [], unstaged, m => ([], mergeUnstaged unstaged m)
  | p :: pending, unstaged, m =>
    let (unstaged, m) := mergeUnstaged unstaged m
    if p.buffer.start ≤ m.range.stop then
      mergeHunks pending unstaged
        { m with range := ⟨m.range.start, max m.range.stop p.buffer.stop⟩ }
    else (p :: pending, unstaged, m)

abbrev IndexEdit := Range × Bytes

def textIn (text : Bytes) (r : Range) : Bytes := (text.take r.stop).drop r.start

def replacementText (head buffer : Bytes) (range headRange : Range) : SecondaryStatus → Option Bytes
  | .secondaryHunkRemovalPending => some (textIn buffer range)
  | .secondaryHunkAdditionPending => some (textIn head headRange)
  | _ => none

/-- The second loop. The fuel is the number of pending hunks. -/
def computeEdits (head index buffer : Bytes) : Nat → List PendingHunk → List Hunk → Nat → Nat →
    Option (List IndexEdit)
  | 0, _, _, _, _ => some []
  | _ + 1, [], _, _, _ => some []
  | fuel + 1, p :: pending, unstaged, prevBufferEnd, prevBaseEnd => do
      let skipped := unstaged.takeWhile fun u => u.buffer.stop < p.buffer.start
      let unstaged := unstaged.dropWhile fun u => u.buffer.stop < p.buffer.start
      let prevBufferEnd := (skipped.getLast?.map (·.buffer.stop)).getD prevBufferEnd
      let prevBaseEnd := (skipped.getLast?.map (·.base.stop)).getD prevBaseEnd
      -- an unchecked subtraction in the source
      let startOvershoot ← if prevBufferEnd ≤ p.buffer.start then
        some (p.buffer.start - prevBufferEnd) else none
      let (pending, unstaged, m) := mergeHunks pending unstaged
        { range := p.buffer
          indexStart := prevBaseEnd + startOvershoot
          prevBufferEnd := prevBufferEnd
          prevBaseEnd := prevBaseEnd }
      let indexEnd := min (m.prevBaseEnd + (m.range.stop - m.prevBufferEnd)) index.length
      let indexStart := min m.indexStart indexEnd
      let edits ← computeEdits head index buffer fuel pending unstaged m.prevBufferEnd m.prevBaseEnd
      match replacementText head buffer m.range p.base p.newStatus with
      | some text => some ((⟨indexStart, indexEnd⟩, text) :: edits)
      | none => some edits

/-- The index with the edits, from an offset on. A cursor cannot go back. -/
def applyEdits (index : Bytes) : Nat → List IndexEdit → Option Bytes
  | offset, [] => some (index.drop offset)
  | offset, (range, text) :: edits =>
    if offset ≤ range.start ∧ range.start ≤ range.stop then
      (applyEdits index range.stop edits).map fun rest =>
        textIn index ⟨offset, range.start⟩ ++ (text ++ rest)
    else none

/-- `stage_or_unstage_hunks_impl`: the new text of the index, if there is to be one, and the
pending hunks. -/
def stageOrUnstageHunksImpl (head index : Option Bytes) (buffer : Bytes) (unstaged : List Hunk)
    (pending : List PendingHunk) (stage : Bool) (hunks : List DiffHunk) (fileExists : Bool) :
    Option (Option Bytes × List PendingHunk) :=
  match index, head, fileExists || !stage with
  | some index, some head, true => do
      let pending := mergeRequests stage hunks pending
      let edits ← computeEdits head index buffer pending.length pending unstaged 0 0
      let newIndex ← applyEdits index 0 edits
      some (some newIndex, pending)
  | index, head, _ =>
    -- the whole file is created or deleted in the index
    let whole : PendingHunk :=
      ⟨⟨⟨0, buffer.length⟩, ⟨0, (index.map List.length).getD 0⟩⟩, newStatusOf stage⟩
    some (if stage then (if fileExists then some buffer else none) else head, [whole])

/-! ## The hunks of the diff with their status -/

def pointAt (text : Bytes) (offset : Nat) : Point :=
  ⟨(text.take offset).count 10, ((text.take offset).reverse.takeWhile (· != 10)).length⟩

def roundedPoint (text : Bytes) (offset : Nat) : Point :=
  if 0 < (pointAt text offset).column then ⟨(pointAt text offset).row + 1, 0⟩
  else pointAt text offset

def hunkEnd (text : Bytes) (offset : Nat) : Nat :=
  if 0 < (pointAt text offset).column ∧ offset < text.length then
    min (offset + ((text.drop offset).takeWhile (· != 10)).length + 1) text.length
  else offset

def pendingStatus (text : Bytes) (h : Hunk) : Option PendingHunk → Option SecondaryStatus
  | none => none
  | some p =>
    if pointAt text p.buffer.start = pointAt text h.buffer.start ∧
        roundedPoint text p.buffer.stop = pointAt text h.buffer.stop then
      some p.newStatus
    else none

def secondaryStatusOf (text : Bytes) (h : Hunk) : Option Hunk → SecondaryStatus
  | none => .noSecondaryHunk
  | some u =>
    if pointAt text u.buffer.start = roundedPoint text u.buffer.stop ∧
        u.base.start = u.base.stop then .noSecondaryHunk
    else if pointAt text u.buffer.start = pointAt text h.buffer.start ∧
        roundedPoint text u.buffer.stop = pointAt text h.buffer.stop then .hasSecondaryHunk
    else if u.buffer.start ≤ h.buffer.stop then .overlapsWithSecondaryHunk
    else .noSecondaryHunk

/-- `hunks_intersecting_range_impl` over the whole buffer. -/
def hunksWithStatus (text : Bytes) : List PendingHunk → List Hunk → List Hunk → List DiffHunk
  | _, _, [] => []
  | pending, unstaged, hunk :: hunks =>
    let h : Hunk := ⟨⟨hunk.buffer.start, hunkEnd text hunk.buffer.stop⟩, hunk.base⟩
    let pending := pending.dropWhile fun p => p.buffer.stop < h.buffer.start
    match pendingStatus text h pending.head? with
    | some status => ⟨h, status⟩ :: hunksWithStatus text pending unstaged hunks
    | none =>
      let unstaged := unstaged.dropWhile fun u => u.buffer.stop < h.buffer.start
      ⟨h, secondaryStatusOf text h unstaged.head?⟩ ::
        hunksWithStatus text pending unstaged hunks

end SpkEditor.Staging
