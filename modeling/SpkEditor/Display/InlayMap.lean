import SpkEditor.Lib.Advance
import SpkEditor.Rope.Chunk
import SpkEditor.Rope.TextSummary
import SpkEditor.Text.Patch
import Mathlib.Data.Finset.Sort

/-!
# The inlay map

`InlayMap`: the text of a buffer, with the texts of inlays between its characters. The snapshot is a
list of transforms, stretches of the buffer and inlays by turns. `sync` carries it over to the next
buffer: what the edits do not touch is kept, and around every edit the transforms are built anew from
the list of the inlays.

The buffer is a multibuffer, of which the map only sees the text and how anchors resolve. `none` is
a panic.
-/

namespace SpkEditor.Inlays

open Chunked (strSlice)

variable {Anchor : Type}

/-- `MultiBufferSnapshot`: its text, its anchors, and the counters that `sync` compares. -/
structure Buffer (Anchor : Type) where
  text : List Char
  toOffset : Anchor → Nat
  isValid : Anchor → Bool
  cmp : Anchor → Anchor → Ordering
  editCount : Nat
  nonTextStateUpdateCount : Nat
  trailingExcerptUpdateCount : Nat

inductive InlayId where
  | editPrediction (n : Nat)
  | debuggerValue (n : Nat)
  | hint (n : Nat)
  | color (n : Nat)
  | replResult (n : Nat)
  deriving DecidableEq

/-- `Inlay`. Its text is that of `Inlay::text`. -/
structure Inlay (Anchor : Type) where
  id : InlayId
  position : Anchor
  text : List Char

inductive Transform (Anchor : Type) where
  | isomorphic (summary : TextSummary)
  | inlay (inlay : Inlay Anchor)

/-- `InlaySnapshot`. -/
structure Snapshot (Anchor : Type) where
  buffer : Buffer Anchor
  transforms : List (Transform Anchor)
  version : Nat

structure InlayMap (Anchor : Type) where
  snapshot : Snapshot Anchor
  inlays : List (Inlay Anchor)

namespace Transform

/-- `TransformSummary::input`. -/
def input : Transform Anchor → TextSummary
  | .isomorphic summary => summary
  | .inlay _ => .zero

/-- `TransformSummary::output`. -/
def output : Transform Anchor → TextSummary
  | .isomorphic summary => summary
  | .inlay i => .ofText i.text

def isIsomorphic : Transform Anchor → Bool
  | .isomorphic _ => true
  | .inlay _ => false

end Transform

/-- `summary().input`. -/
def inputSummary (ts : List (Transform Anchor)) : TextSummary :=
  ts.foldl (fun s t => s.add t.input) .zero

def inputLen (ts : List (Transform Anchor)) : Nat := (ts.map (·.input.len)).sum

def outputLen (ts : List (Transform Anchor)) : Nat := (ts.map (·.output.len)).sum

/-- `text_summary_for_range`. -/
def Buffer.textSummaryForRange (b : Buffer Anchor) (start stop : Nat) : Option TextSummary :=
  (strSlice b.text start stop).map .ofText

/-- `len`. -/
def Buffer.len (b : Buffer Anchor) : Nat := byteLen b.text

/-- The chunks of a snapshot, from offset `start` of the buffer on. -/
def chunks (buffer : List Char) : Nat → List (Transform Anchor) → Option (List Char)
  | _, [] => some []
  | start, .isomorphic summary :: ts => do
      let chunk ← strSlice buffer start (start + summary.len)
      let rest ← chunks buffer (start + summary.len) ts
      some (chunk ++ rest)
  | start, .inlay i :: ts => do
      let rest ← chunks buffer start ts
      some (i.text ++ rest)

/-- `InlaySnapshot::text`. -/
def Snapshot.text (s : Snapshot Anchor) : Option (List Char) := chunks s.buffer.text 0 s.transforms

/-- `sum_tree::Cursor`: the transforms that it has passed, and those that it has not. -/
structure Cursor (Anchor : Type) where
  seen : List (Transform Anchor)
  rest : List (Transform Anchor)

namespace Cursor

/-- `cursor.start()`: the offsets in the buffer and in the snapshot. -/
def start (c : Cursor Anchor) : Nat × Nat := (inputLen c.seen, outputLen c.seen)

def item (c : Cursor Anchor) : Option (Transform Anchor) := c.rest.head?

/-- `cursor.end().0`. -/
def stop (c : Cursor Anchor) : Nat :=
  c.start.1 + (c.rest.head?.map fun t => t.input.len).getD 0

def next (c : Cursor Anchor) : Cursor Anchor :=
  ⟨c.seen ++ c.rest.head?.toList, c.rest.tail⟩

/-- `cursor.slice(target, Bias::Left)`. A cursor does not go backward. -/
def slice (c : Cursor Anchor) (target : Nat) :
    Option (List (Transform Anchor) × Cursor Anchor) :=
  if c.start.1 ≤ target then
    let r := advance (·.input.len) (fun stop => stop < target) c.start.1 c.rest
    some (r.1, ⟨c.seen ++ r.1, r.2⟩)
  else none

/-- `cursor.seek(target, Bias::Right)`, which starts over. -/
def seek (c : Cursor Anchor) (target : Nat) : Cursor Anchor :=
  let r := advance (·.input.len) (fun stop => stop ≤ target) 0 (c.seen ++ c.rest)
  ⟨r.1, r.2⟩

end Cursor

/-! ## Synchronizing with the buffer -/

/-- `push_isomorphic`. -/
def pushIsomorphic (ts : List (Transform Anchor)) (summary : TextSummary) : List (Transform Anchor) :=
  if summary.len = 0 then ts
  else
    match ts.getLast? with
    | some (.isomorphic last) => ts.dropLast ++ [.isomorphic (last.add summary)]
    | _ => ts ++ [.isomorphic summary]

/-- The text of the buffer, up to `stop`. -/
def pushUntil (buffer : Buffer Anchor) (ts : List (Transform Anchor)) (stop : Nat) :
    Option (List (Transform Anchor)) := do
  let summary ← buffer.textSummaryForRange (inputLen ts) stop
  some (pushIsomorphic ts summary)

/-- The inlays of an edit, which ends at `stop`. -/
def pushInlays (buffer : Buffer Anchor) (stop : Nat) :
    List (Transform Anchor) → List (Inlay Anchor) → Option (List (Transform Anchor))
  | ts, [] => some ts
  | ts, inlay :: inlays =>
    if buffer.isValid inlay.position = false then pushInlays buffer stop ts inlays
    else if stop < buffer.toOffset inlay.position then some ts
    else do
      let ts ← pushUntil buffer ts (buffer.toOffset inlay.position)
      pushInlays buffer stop (ts ++ [.inlay inlay]) inlays

/-- The transforms that are done, the cursor on the old ones, and the edits. -/
structure SyncState (Anchor : Type) where
  newTransforms : List (Transform Anchor)
  cursor : Cursor Anchor
  inlayEdits : Patch

/-- The transforms before an edit. -/
def copyBefore (st : SyncState Anchor) (start : Nat) :
    Option (List (Transform Anchor) × Cursor Anchor) := do
  let (slice, cursor) ← st.cursor.slice start
  let ts := st.newTransforms ++ slice
  match cursor.item with
  | some (.isomorphic summary) =>
    if cursor.stop = start then some (pushIsomorphic ts summary, cursor.next)
    else some (ts, cursor)
  | _ => some (ts, cursor)

def pushRemainder (buffer : Buffer Anchor) (next : Option Edit) (edit : Edit) (st : SyncState Anchor) :
    Option (SyncState Anchor) :=
  if next.all (fun e => st.cursor.stop ≤ e.old.start) then do
    let transformEnd := edit.new.stop + (← Patch.checkedSub st.cursor.stop edit.old.stop)
    let ts ← pushUntil buffer st.newTransforms transformEnd
    some { st with newTransforms := ts, cursor := st.cursor.next }
  else some st

/-- One round of the loop of `sync`. -/
def syncEdit (inlays : List (Inlay Anchor)) (buffer : Buffer Anchor) (next : Option Edit)
    (st : SyncState Anchor) (edit : Edit) : Option (SyncState Anchor) := do
  let (ts, cursor) ← copyBefore st edit.old.start
  -- remove all the inlays and transforms contained by the edit
  let oldStart := cursor.start.2 + (← Patch.checkedSub edit.old.start cursor.start.1)
  let cursor := cursor.seek edit.old.stop
  let oldEnd := cursor.start.2 + (← Patch.checkedSub edit.old.stop cursor.start.1)
  -- push the unchanged prefix
  let ts ← pushUntil buffer ts edit.new.start
  let newStart := outputLen ts
  -- `binary_search_by`: the first inlay that is not before the edit
  let startIx := inlays.findIdx fun probe => edit.new.start ≤ buffer.toOffset probe.position
  let ts ← pushInlays buffer edit.new.stop ts (inlays.drop startIx)
  -- apply the rest of the edit
  let ts ← pushUntil buffer ts edit.new.stop
  let newEnd := outputLen ts
  let inlayEdits := st.inlayEdits.push ⟨⟨oldStart, oldEnd⟩, ⟨newStart, newEnd⟩⟩
  pushRemainder buffer next edit ⟨ts, cursor, inlayEdits⟩

/-- The loop of `sync`. -/
def syncEdits (inlays : List (Inlay Anchor)) (buffer : Buffer Anchor) :
    SyncState Anchor → List Edit → Option (SyncState Anchor)
  | st, [] => some st
  | st, edit :: edits => do
      let st ← syncEdit inlays buffer edits.head? st edit
      syncEdits inlays buffer st edits

/-- The assertions of `check_invariants`. -/
def checkInvariants (s : Snapshot Anchor) : Prop :=
  inputSummary s.transforms = .ofText s.buffer.text ∧
    s.transforms.IsChain fun a b => ¬ (a.isIsomorphic = true ∧ b.isIsomorphic = true)

instance (s : Snapshot Anchor) : Decidable (checkInvariants s) := inferInstanceAs (Decidable (_ ∧ _))

def withTrailingEdit (old buffer : Buffer Anchor) (bufferEdits : List Edit) : List Edit :=
  if bufferEdits = [] ∧ old.trailingExcerptUpdateCount ≠ buffer.trailingExcerptUpdateCount then
    [⟨⟨old.len, old.len⟩, ⟨buffer.len, buffer.len⟩⟩]
  else bufferEdits

namespace InlayMap

/-- `InlayMap::new`. -/
def new (buffer : Buffer Anchor) : InlayMap Anchor :=
  ⟨⟨buffer, [.isomorphic (.ofText buffer.text)], 0⟩, []⟩

/-- `InlayMap::sync`. -/
def sync (m : InlayMap Anchor) (buffer : Buffer Anchor) (bufferEdits : List Edit) :
    Option (InlayMap Anchor × Patch) :=
  let old := m.snapshot.buffer
  let bufferEdits := withTrailingEdit old buffer bufferEdits
  if bufferEdits = [] then
    let changed := old.editCount ≠ buffer.editCount ∨
      old.nonTextStateUpdateCount ≠ buffer.nonTextStateUpdateCount ∨
      old.trailingExcerptUpdateCount ≠ buffer.trailingExcerptUpdateCount
    let version := if changed then m.snapshot.version + 1 else m.snapshot.version
    some ({ m with snapshot := { m.snapshot with buffer := buffer, version := version } }, [])
  else do
    let st ← syncEdits m.inlays buffer ⟨[], ⟨[], m.snapshot.transforms⟩, []⟩ bufferEdits
    let ts := st.newTransforms ++ st.cursor.rest
    let ts := if ts.isEmpty then [.isomorphic .zero] else ts
    let snapshot : Snapshot Anchor := ⟨buffer, ts, m.snapshot.version + 1⟩
    if checkInvariants snapshot then some ({ m with snapshot := snapshot }, st.inlayEdits) else none

/-- The inlays are sorted by their anchors, and equal ones by when they came. -/
def insertInlay (buffer : Buffer Anchor) (inlays : List (Inlay Anchor)) (inlay : Inlay Anchor) :
    List (Inlay Anchor) :=
  -- `binary_search_by`: the first inlay that is behind it
  let ix := inlays.findIdx fun probe => buffer.cmp probe.position inlay.position = .gt
  inlays.take ix ++ inlay :: inlays.drop ix

/-- `InlayMap::splice`. -/
def splice (m : InlayMap Anchor) (toRemove : List InlayId) (toInsert : List (Inlay Anchor)) :
    Option (InlayMap Anchor × Patch) :=
  let buffer := m.snapshot.buffer
  -- avoid inserting empty inlays
  let toInsert := toInsert.filter fun i => i.text ≠ []
  let removed := m.inlays.filter fun i => i.id ∈ toRemove
  let inlays := m.inlays.filter fun i => i.id ∉ toRemove
  let inlays := toInsert.foldl (insertInlay buffer) inlays
  let edits : Finset Nat := ((removed ++ toInsert).map fun i => buffer.toOffset i.position).toFinset
  sync { m with inlays := inlays } buffer
    (edits.sort.map fun offset => ⟨⟨offset, offset⟩, ⟨offset, offset⟩⟩)

end InlayMap

end SpkEditor.Inlays
