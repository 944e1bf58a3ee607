import SpkEditor.Text.Anchor

/-!
# What has changed since a version

`rope_for_version` and `edits_since_in_range` walk over the fragments that something has touched since a
version, and take everything between them to be as it was. Each of them is inserted, deleted or still as it
was, and the iterator merges what has no text in between into one edit. Two fast checks only ask whether
there is anything to yield (`has_edits_since`, `has_edits_since_in_range`).

A filter cursor over the fragments is the list of its stops. Offsets are `usize`. The anchors that come with
every edit are left out. `none` is a panic.
-/

namespace SpkEditor

/-! ## Cursors -/

/-- `rope::Cursor`, over the text itself. -/
structure TextCursor where
  text : List UInt8
  offset : Nat

namespace TextCursor

/-- `seek_forward`. -/
def seekForward (c : TextCursor) (endOffset : Nat) : Option TextCursor :=
  if c.offset ≤ endOffset ∧ endOffset ≤ c.text.length then some { c with offset := endOffset } else none

/-- `slice`. -/
def slice (c : TextCursor) (endOffset : Nat) : Option (List UInt8 × TextCursor) :=
  (c.seekForward endOffset).map fun c' => ((c.text.take endOffset).drop c.offset, c')

/-- `summary`, in `usize`. -/
def summary (c : TextCursor) (endOffset : Nat) : Option (Nat × TextCursor) :=
  (c.slice endOffset).map fun r => (r.1.length, r.2)

end TextCursor

structure FilterStop where
  start : Nat × Nat
  fragment : Fragment

/-- `!since.observed_all(&summary.max_version)`. -/
def Fragment.touchedSince (f : Fragment) (since : Global) : Bool := !since.observedAll f.maxVersion

/-- `self.fragments.filter(..)`, from a position on. -/
def touchedFrom (since : Global) : Nat × Nat → List Fragment → List FilterStop
  | _, [] => []
  | start, f :: rest =>
    let stops := touchedFrom since (start.1 + f.visibleLen, start.2 + f.deletedLen) rest
    if f.touchedSince since then ⟨start, f⟩ :: stops else stops

/-! ## The text of a version -/

/-- The text up to a position that has not been passed, if any. -/
def TextCursor.upTo (c : TextCursor) (start : Nat) : Option (List UInt8 × TextCursor) :=
  if c.offset < start then c.slice start else some ([], c)

def readStop (version : Global) (undos : UndoMap) (stop : FilterStop) (visibleCursor deletedCursor : TextCursor) :
    Option (List UInt8 × TextCursor × TextCursor) :=
  if stop.fragment.wasVisible version undos then
    if stop.fragment.visible then
      (visibleCursor.slice (stop.start.1 + stop.fragment.visibleLen)).map fun r => (r.1, r.2, deletedCursor)
    else
      (deletedCursor.seekForward stop.start.2).bind fun deletedCursor =>
        (deletedCursor.slice (stop.start.2 + stop.fragment.deletedLen)).map fun r => (r.1, visibleCursor, r.2)
  else if stop.fragment.visible then
    (visibleCursor.seekForward (stop.start.1 + stop.fragment.visibleLen)).map fun visibleCursor =>
      ([], visibleCursor, deletedCursor)
  else some ([], visibleCursor, deletedCursor)

/-- The turns of `rope_for_version`, with the text so far. -/
def ropeForVersionFrom (version : Global) (undos : UndoMap) :
    List FilterStop → List UInt8 → TextCursor → TextCursor → Option (List UInt8 × TextCursor)
  | [], rope, visibleCursor, _ => some (rope, visibleCursor)
  | stop :: stops, rope, visibleCursor, deletedCursor =>
    (visibleCursor.upTo stop.start.1).bind fun r =>
      (readStop version undos stop r.2 deletedCursor).bind fun t =>
        ropeForVersionFrom version undos stops (rope ++ r.1 ++ t.1) t.2.1 t.2.2

/-- `rope_for_version`. -/
def BufferSnapshot.ropeForVersion (s : BufferSnapshot) (version : Global) : Option (List UInt8) :=
  let stops := touchedFrom version (0, 0) s.fragments
  (ropeForVersionFrom version s.undoMap stops [] ⟨s.visibleText, 0⟩ ⟨s.deletedText, 0⟩).bind fun r =>
    (r.2.upTo (visibleLen s.fragments)).map fun t => r.1 ++ t.1

/-! ## Edits -/

/-- What does not change while edits are yielded: the version, the undos, and the fragments of the two ends with
the offsets of the anchors there. -/
structure EditsQuery where
  since : Global
  undos : UndoMap
  start : Locator × Nat
  stop : Locator × Nat

/-- `Edits`, less its query and its fragments cursor, which stand beside it. -/
structure Edits where
  visibleCursor : TextCursor
  deletedCursor : TextCursor
  oldEnd : Nat
  newEnd : Nat

/-- The end of a fragment, or of what the range has of it. -/
def EditsQuery.clamp (q : EditsQuery) (f : Fragment) (start stop : Nat) : Option Nat :=
  if f.id = q.stop.1 then
    (Patch.checkedSub q.stop.2 f.insertionOffset).map fun len => min stop (start + len)
  else some stop

namespace Edits

/-- Text up to the next fragment is as it was. -/
def catchUp (e : Edits) (start : Nat) : Option Edits :=
  if e.visibleCursor.offset < start then
    (e.visibleCursor.summary start).map fun r =>
      { e with visibleCursor := r.2, oldEnd := e.oldEnd + r.1, newEnd := e.newEnd + r.1 }
  else some e

/-- `deleted_cursor`, moved on to a fragment if it is not there yet. -/
def deletedAt (e : Edits) (start : Nat) : Option TextCursor :=
  if e.deletedCursor.offset < start then e.deletedCursor.seekForward start else some e.deletedCursor

/-- The edit so far, or a new one, with more inserted. -/
def growNew (e : Edits) (newEnd : Nat) : Option Edit → Edit
  | some edit => { edit with new := ⟨edit.new.start, newEnd⟩ }
  | none => ⟨⟨e.oldEnd, e.oldEnd⟩, ⟨e.newEnd, newEnd⟩⟩

/-- The edit so far, or a new one, with more deleted. -/
def growOld (e : Edits) (oldEnd : Nat) : Option Edit → Edit
  | some edit => { edit with old := ⟨edit.old.start, oldEnd⟩ }
  | none => ⟨⟨e.oldEnd, oldEnd⟩, ⟨e.newEnd, e.newEnd⟩⟩

def inserted (q : EditsQuery) (e : Edits) (stop : FilterStop) (pendingEdit : Option Edit) :
    Option (Edits × Option Edit) := do
  let visibleEnd ← q.clamp stop.fragment stop.start.1 (stop.start.1 + stop.fragment.visibleLen)
  let (len, visibleCursor) ← e.visibleCursor.summary visibleEnd
  let newEnd := e.newEnd + len
  some ({ e with visibleCursor, newEnd }, some (e.growNew newEnd pendingEdit))

/-- A fragment that was visible and is not. -/
def deleted (q : EditsQuery) (e : Edits) (stop : FilterStop) (pendingEdit : Option Edit) :
    Option (Edits × Option Edit) := do
  let deletedEnd ← q.clamp stop.fragment stop.start.2 (stop.start.2 + stop.fragment.deletedLen)
  let deletedCursor ← e.deletedAt stop.start.2
  let (len, deletedCursor) ← deletedCursor.summary deletedEnd
  let oldEnd := e.oldEnd + len
  some ({ e with deletedCursor, oldEnd }, some (e.growOld oldEnd pendingEdit))

/-- What happened to one fragment, and the edit so far. -/
def change (q : EditsQuery) (e : Edits) (stop : FilterStop) (pendingEdit : Option Edit) : Option (Edits × Option Edit) :=
  if !stop.fragment.wasVisible q.since q.undos && stop.fragment.visible then e.inserted q stop pendingEdit
  else if stop.fragment.wasVisible q.since q.undos && !stop.fragment.visible then e.deleted q stop pendingEdit
  else some (e, pendingEdit)

/-- There is text between the edit so far and where we are. -/
def isApart (e : Edits) (pendingEdit : Option Edit) : Bool :=
  pendingEdit.any fun change => change.new.stop < e.newEnd

/-- `Edits::next`: the next edit, where the fragments cursor stands then, and the rest. -/
def next (q : EditsQuery) : List FilterStop → Edits → Option Edit → Option (Option Edit × List FilterStop × Edits)
  | [], e, pendingEdit => some (pendingEdit, [], e)
  | stop :: stops, e, pendingEdit =>
    if stop.fragment.id < q.start.1 then next q stops e pendingEdit
    else if q.stop.1 < stop.fragment.id then some (pendingEdit, stop :: stops, e)
    else
      (e.catchUp stop.start.1).bind fun e =>
        if e.isApart pendingEdit then some (pendingEdit, stop :: stops, e)
        else (e.change q stop pendingEdit).bind fun r => next q stops r.1 r.2

/-- Edits one after the other, as long as there are some. -/
def collect (q : EditsQuery) : Nat → List FilterStop → Edits → Option Patch
  | 0, _, _ => none
  | fuel + 1, stops, e =>
    (next q stops e none).bind fun r =>
      match r.1 with
      | none => some []
      | some edit => (collect q fuel r.2.1 r.2.2).map fun edits => edit :: edits

end Edits

namespace BufferSnapshot

/-- Where the visible and the deleted text of a range start: in the fragment of the start anchor, or behind all of
them. -/
def editsStart (s : BufferSnapshot) (startFragmentId : Locator) (offset : Nat) : Option (Nat × Nat) :=
  let passed := s.fragments.takeWhile fun f => f.id < startFragmentId
  match (s.fragments.dropWhile fun f => f.id < startFragmentId).head? with
  | none => some (visibleLen passed, deletedLen passed)
  | some f =>
    (Patch.checkedSub offset f.insertionOffset).map fun overshoot =>
      if f.visible then (visibleLen passed + overshoot, deletedLen passed)
      else (visibleLen passed, deletedLen passed + overshoot)

/-- `edits_since_in_range`: all edits. -/
def editsSinceInRange (cfg : Profile) (s : BufferSnapshot) (since : Global) (start stop : Anchor) : Option Patch :=
  if since = s.version then some []
  else do
    let startFragmentId ← s.fragmentIdForAnchor cfg start
    let (visibleStart, deletedStart) ← s.editsStart startFragmentId start.offset
    let endFragmentId ← s.fragmentIdForAnchor cfg stop
    let stops := touchedFrom since (0, 0) s.fragments
    Edits.collect ⟨since, s.undoMap, (startFragmentId, start.offset), (endFragmentId, stop.offset)⟩ (stops.length + 1)
      stops ⟨⟨s.visibleText, visibleStart⟩, ⟨s.deletedText, deletedStart⟩, 0, 0⟩

/-- `edits_since`. -/
def editsSince (cfg : Profile) (s : BufferSnapshot) (since : Global) : Option Patch :=
  s.editsSinceInRange cfg since (.minForBuffer s.remoteId) (.maxForBuffer s.remoteId)

/-! ## Fast checks -/

def changedSince (s : BufferSnapshot) (since : Global) (f : Fragment) : Bool :=
  f.wasVisible since s.undoMap != f.visible

/-- The loop of `has_edits_since_in_range`. -/
def hasEditsFrom (s : BufferSnapshot) (since : Global) (startFragmentId endFragmentId : Locator) : List FilterStop → Bool
  | [] => false
  | stop :: stops =>
    if endFragmentId < stop.fragment.id then false
    else if startFragmentId < stop.fragment.id ∧ s.changedSince since stop.fragment = true then true
    else hasEditsFrom s since startFragmentId endFragmentId stops

/-- `has_edits_since_in_range`. -/
def hasEditsSinceInRange (cfg : Profile) (s : BufferSnapshot) (since : Global) (start stop : Anchor) : Option Bool :=
  if since = s.version then some false
  else do
    let startFragmentId ← s.fragmentIdForAnchor cfg start
    let endFragmentId ← s.fragmentIdForAnchor cfg stop
    some (s.hasEditsFrom since startFragmentId endFragmentId (touchedFrom since (0, 0) s.fragments))

/-- `has_edits_since`. -/
def hasEditsSince (s : BufferSnapshot) (since : Global) : Bool :=
  if since = s.version then false
  else (touchedFrom since (0, 0) s.fragments).any fun stop => s.changedSince since stop.fragment

end BufferSnapshot

end SpkEditor
