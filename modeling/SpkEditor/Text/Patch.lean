import Mathlib.Data.List.Chain

/-!
# Patches

`Patch<usize>`: a list of edits, each saying that a range of the old text became a
range of the new one. `push` appends an edit, merging it into the last one when
they touch, and `compose` folds a second patch over a first.

What a patch is *for* is `Describes`: cut both texts into stretches that are the
same and stretches that were replaced, and the edits are exactly the latter.
-/

namespace SpkEditor

/-- A half-open range of offsets. -/
structure Range where
  start : Nat
  stop : Nat
  deriving DecidableEq

def Range.len (r : Range) : Nat := r.stop - r.start

def Range.slice {β : Type} (r : Range) (text : List β) : List β :=
  (text.drop r.start).take r.len

/-- One replaced range: where it was, and where its replacement is. -/
structure Edit where
  old : Range
  new : Range
  deriving DecidableEq

namespace Edit

def isEmpty (e : Edit) : Bool := e.old.start == e.old.stop && e.new.start == e.new.stop

def oldLen (e : Edit) : Nat := e.old.stop - e.old.start

def newLen (e : Edit) : Nat := e.new.stop - e.new.start

end Edit

abbrev Patch := List Edit

namespace Patch

/-- Append an edit, or extend the last one if it reaches the new one's start. -/
def pushMaybeEmpty : Patch → Edit → Patch
  | [], edit => [edit]
  | [last], edit =>
    if edit.old.start ≤ last.old.stop then
      [⟨⟨last.old.start, edit.old.stop⟩, ⟨last.new.start, edit.new.stop⟩⟩]
    else [last, edit]
  | a :: b :: patch, edit => a :: pushMaybeEmpty (b :: patch) edit

/-- Append an edit that changes something. -/
def push (patch : Patch) (edit : Edit) : Patch :=
  if edit.isEmpty then patch else patch.pushMaybeEmpty edit

/-- What is left to do: the remaining old and new edits, the patch so far, and how far
it reaches in the old and in the new text. -/
abbrev ComposeNext := Patch → Patch → Patch → Nat → Nat → Patch

/-- Catch up with the start of an edit of the first patch, and emit all of it. -/
def composeOld (next : ComposeNext) (oldEdit : Edit) (oldEdits newEdits composed : Patch)
    (oldStart newStart : Nat) : Patch :=
  let catchup := oldEdit.old.start - oldStart
  let oldStart := oldStart + catchup
  let newStart := newStart + catchup
  let oldEnd := oldStart + oldEdit.oldLen
  let newEnd := newStart + oldEdit.newLen
  next oldEdits newEdits (composed.push ⟨⟨oldStart, oldEnd⟩, ⟨newStart, newEnd⟩⟩) oldEnd newEnd

/-- Catch up with the start of an edit of the second patch, and emit all of it. -/
def composeNew (next : ComposeNext) (newEdit : Edit) (oldEdits newEdits composed : Patch)
    (oldStart newStart : Nat) : Patch :=
  let catchup := newEdit.new.start - newStart
  let oldStart := oldStart + catchup
  let newStart := newStart + catchup
  let oldEnd := oldStart + newEdit.oldLen
  let newEnd := newStart + newEdit.newLen
  next oldEdits newEdits (composed.push ⟨⟨oldStart, oldEnd⟩, ⟨newStart, newEnd⟩⟩) oldEnd newEnd

/-- The two edits intersect and now start together: emit their common part, and drop
whichever of the two ends first. -/
def composeMeet (next : ComposeNext) (oldEdit newEdit : Edit)
    (oldEdits newEdits composed : Patch) (oldStart newStart : Nat) : Patch :=
  if newEdit.old.stop < oldEdit.new.stop then
    let oldEnd := oldStart + min oldEdit.oldLen newEdit.oldLen
    let newEnd := newStart + newEdit.newLen
    next (⟨⟨oldEnd, oldEdit.old.stop⟩, ⟨newEdit.old.stop, oldEdit.new.stop⟩⟩ :: oldEdits) newEdits
      (composed.push ⟨⟨oldStart, oldEnd⟩, ⟨newStart, newEnd⟩⟩) oldEnd newEnd
  else
    let oldEnd := oldStart + oldEdit.oldLen
    let newEnd := newStart + min oldEdit.newLen newEdit.newLen
    next oldEdits (⟨⟨oldEdit.new.stop, newEdit.old.stop⟩, ⟨newEnd, newEdit.new.stop⟩⟩ :: newEdits)
      (composed.push ⟨⟨oldStart, oldEnd⟩, ⟨newStart, newEnd⟩⟩) oldEnd newEnd

/--
The loop of `compose`. Each round takes an edit off one of the two lists, so
`old.length + new.length` rounds of fuel are enough.
-/
def composeLoop : Nat → Patch → Patch → Patch → Nat → Nat → Patch
  | 0, _, _, composed, _, _ => composed
  | _ + 1, [], [], composed, _, _ => composed
  | fuel + 1, oldEdit :: oldEdits, [], composed, oldStart, newStart =>
    composeOld (composeLoop fuel) oldEdit oldEdits [] composed oldStart newStart
  | fuel + 1, [], newEdit :: newEdits, composed, oldStart, newStart =>
    composeNew (composeLoop fuel) newEdit [] newEdits composed oldStart newStart
  | fuel + 1, oldEdit :: oldEdits, newEdit :: newEdits, composed, oldStart, newStart =>
    -- push the old edit if its new end is before the new edit's old start
    if oldEdit.new.stop < newEdit.old.start then
      composeOld (composeLoop fuel) oldEdit oldEdits (newEdit :: newEdits) composed oldStart newStart
    -- push the new edit if its old end is before the old edit's new start
    else if newEdit.old.stop < oldEdit.new.start then
      composeNew (composeLoop fuel) newEdit (oldEdit :: oldEdits) newEdits composed oldStart newStart
    else if oldEdit.new.start < newEdit.old.start then
      let catchup := oldEdit.old.start - oldStart
      let oldStart := oldStart + catchup
      let newStart := newStart + catchup
      let overshoot := newEdit.old.start - oldEdit.new.start
      let oldEnd := min (oldStart + overshoot) oldEdit.old.stop
      let newEnd := newStart + overshoot
      composeMeet (composeLoop fuel)
        ⟨⟨oldEnd, oldEdit.old.stop⟩, ⟨oldEdit.new.start + overshoot, oldEdit.new.stop⟩⟩ newEdit
        oldEdits newEdits (composed.push ⟨⟨oldStart, oldEnd⟩, ⟨newStart, newEnd⟩⟩) oldEnd newEnd
    else
      let catchup := newEdit.new.start - newStart
      let oldStart := oldStart + catchup
      let newStart := newStart + catchup
      let overshoot := oldEdit.new.start - newEdit.old.start
      let oldEnd := oldStart + overshoot
      let newEnd := min (newStart + overshoot) newEdit.new.stop
      composeMeet (composeLoop fuel) oldEdit
        ⟨⟨newEdit.old.start + overshoot, newEdit.old.stop⟩, ⟨newEnd, newEdit.new.stop⟩⟩
        oldEdits newEdits (composed.push ⟨⟨oldStart, oldEnd⟩, ⟨newStart, newEnd⟩⟩) oldEnd newEnd

/-- The patch from the old text of `patch` to the new text of `newEdits`. -/
def compose (patch newEdits : Patch) : Patch :=
  composeLoop (patch.length + newEdits.length) patch newEdits [] 0 0

/-! ## With checked subtractions

The same loop, where a subtraction that would go below zero is a panic, and so is a loop
that does not end. -/

/-- `a - b` of unsigned numbers. -/
def checkedSub (a b : Nat) : Option Nat := if b ≤ a then some (a - b) else none

def oldLenChecked (e : Edit) : Option Nat := checkedSub e.old.stop e.old.start

def newLenChecked (e : Edit) : Option Nat := checkedSub e.new.stop e.new.start

abbrev ComposeNextChecked := Patch → Patch → Patch → Nat → Nat → Option Patch

def composeOldChecked (next : ComposeNextChecked) (oldEdit : Edit) (oldEdits newEdits composed : Patch)
    (oldStart newStart : Nat) : Option Patch := do
  let catchup ← checkedSub oldEdit.old.start oldStart
  let oldStart := oldStart + catchup
  let newStart := newStart + catchup
  let oldEnd := oldStart + (← oldLenChecked oldEdit)
  let newEnd := newStart + (← newLenChecked oldEdit)
  next oldEdits newEdits (composed.push ⟨⟨oldStart, oldEnd⟩, ⟨newStart, newEnd⟩⟩) oldEnd newEnd

def composeNewChecked (next : ComposeNextChecked) (newEdit : Edit) (oldEdits newEdits composed : Patch)
    (oldStart newStart : Nat) : Option Patch := do
  let catchup ← checkedSub newEdit.new.start newStart
  let oldStart := oldStart + catchup
  let newStart := newStart + catchup
  let oldEnd := oldStart + (← oldLenChecked newEdit)
  let newEnd := newStart + (← newLenChecked newEdit)
  next oldEdits newEdits (composed.push ⟨⟨oldStart, oldEnd⟩, ⟨newStart, newEnd⟩⟩) oldEnd newEnd

def composeMeetChecked (next : ComposeNextChecked) (oldEdit newEdit : Edit)
    (oldEdits newEdits composed : Patch) (oldStart newStart : Nat) : Option Patch :=
  if newEdit.old.stop < oldEdit.new.stop then do
    let oldEnd := oldStart + min (← oldLenChecked oldEdit) (← oldLenChecked newEdit)
    let newEnd := newStart + (← newLenChecked newEdit)
    next (⟨⟨oldEnd, oldEdit.old.stop⟩, ⟨newEdit.old.stop, oldEdit.new.stop⟩⟩ :: oldEdits) newEdits
      (composed.push ⟨⟨oldStart, oldEnd⟩, ⟨newStart, newEnd⟩⟩) oldEnd newEnd
  else do
    let oldEnd := oldStart + (← oldLenChecked oldEdit)
    let newEnd := newStart + min (← newLenChecked oldEdit) (← newLenChecked newEdit)
    next oldEdits (⟨⟨oldEdit.new.stop, newEdit.old.stop⟩, ⟨newEnd, newEdit.new.stop⟩⟩ :: newEdits)
      (composed.push ⟨⟨oldStart, oldEnd⟩, ⟨newStart, newEnd⟩⟩) oldEnd newEnd

def composeLoopChecked : Nat → Patch → Patch → Patch → Nat → Nat → Option Patch
  | _, [], [], composed, _, _ => some composed
  | 0, _, _, _, _, _ => none
  | fuel + 1, oldEdit :: oldEdits, [], composed, oldStart, newStart =>
    composeOldChecked (composeLoopChecked fuel) oldEdit oldEdits [] composed oldStart newStart
  | fuel + 1, [], newEdit :: newEdits, composed, oldStart, newStart =>
    composeNewChecked (composeLoopChecked fuel) newEdit [] newEdits composed oldStart newStart
  | fuel + 1, oldEdit :: oldEdits, newEdit :: newEdits, composed, oldStart, newStart =>
    if oldEdit.new.stop < newEdit.old.start then
      composeOldChecked (composeLoopChecked fuel) oldEdit oldEdits (newEdit :: newEdits) composed
        oldStart newStart
    else if newEdit.old.stop < oldEdit.new.start then
      composeNewChecked (composeLoopChecked fuel) newEdit (oldEdit :: oldEdits) newEdits composed
        oldStart newStart
    else if oldEdit.new.start < newEdit.old.start then do
      let catchup ← checkedSub oldEdit.old.start oldStart
      let oldStart := oldStart + catchup
      let newStart := newStart + catchup
      let overshoot ← checkedSub newEdit.old.start oldEdit.new.start
      let oldEnd := min (oldStart + overshoot) oldEdit.old.stop
      let newEnd := newStart + overshoot
      composeMeetChecked (composeLoopChecked fuel)
        ⟨⟨oldEnd, oldEdit.old.stop⟩, ⟨oldEdit.new.start + overshoot, oldEdit.new.stop⟩⟩ newEdit
        oldEdits newEdits (composed.push ⟨⟨oldStart, oldEnd⟩, ⟨newStart, newEnd⟩⟩) oldEnd newEnd
    else do
      let catchup ← checkedSub newEdit.new.start newStart
      let oldStart := oldStart + catchup
      let newStart := newStart + catchup
      let overshoot ← checkedSub oldEdit.new.start newEdit.old.start
      let oldEnd := oldStart + overshoot
      let newEnd := min (newStart + overshoot) newEdit.new.stop
      composeMeetChecked (composeLoopChecked fuel) oldEdit
        ⟨⟨newEdit.old.start + overshoot, newEdit.old.stop⟩, ⟨newEnd, newEdit.new.stop⟩⟩
        oldEdits newEdits (composed.push ⟨⟨oldStart, oldEnd⟩, ⟨newStart, newEnd⟩⟩) oldEnd newEnd

def composeChecked (patch newEdits : Patch) : Option Patch :=
  composeLoopChecked (patch.length + newEdits.length) patch newEdits [] 0 0

/-- `old_to_new`. The search is for the last edit that starts at the position or before it. -/
def oldToNew (patch : Patch) (old : Nat) : Nat :=
  match (patch.takeWhile (·.old.start ≤ old)).getLast? with
  | none => old
  | some edit => if edit.old.stop ≤ old then edit.new.stop + (old - edit.old.stop) else edit.new.start

end Patch

end SpkEditor
