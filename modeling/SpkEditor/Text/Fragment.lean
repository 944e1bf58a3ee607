import SpkEditor.SumTree.Tree
import SpkEditor.Text.Locator
import SpkEditor.Text.UndoMap

/-!
# Fragments

A buffer is a list of fragments in document order. A fragment is a stretch of the
text of one insertion that has shared one fate so far: whether it is visible, which
edits deleted it, which undos touched it. Splitting a fragment gives its pieces the
same fate, which is what `cells` makes explicit: fragment by fragment, the inserted
bytes one by one, each carrying what its fragment says about it.

Beside the fragments stand two indices into them, `InsertionFragment` (which
fragment holds this offset of this insertion) and `InsertionSlice` (which stretches
did this edit insert or delete), and the two texts, which `RopeBuilder` rewrites in
step with the fragments.
-/

namespace SpkEditor

structure Fragment where
  id : Locator
  timestamp : Lamport
  insertionOffset : Nat
  len : Nat
  visible : Bool
  deletions : List Lamport
  maxUndos : Global
  deriving DecidableEq

structure InsertionFragment where
  timestamp : Lamport
  splitOffset : Nat
  fragmentId : Locator
  deriving DecidableEq

/-- `InsertionFragmentKey`. -/
def InsertionFragment.key (f : InsertionFragment) : Lamport ×ₗ Nat :=
  toLex (f.timestamp, f.splitOffset)

/-- `InsertionFragment::new`. -/
def InsertionFragment.new (f : Fragment) : InsertionFragment :=
  ⟨f.timestamp, f.insertionOffset, f.id⟩

/-- A stretch of an insertion that an edit inserted or deleted. -/
structure InsertionSlice where
  editId : Lamport
  insertionId : Lamport
  range : Range
  deriving DecidableEq

def InsertionSlice.key (s : InsertionSlice) : Lamport ×ₗ Lamport ×ₗ Nat ×ₗ Nat :=
  toLex (s.editId, toLex (s.insertionId, toLex (s.range.start, s.range.stop)))

/-- `InsertionSlice::from_fragment`. -/
def InsertionSlice.fromFragment (editId : Lamport) (f : Fragment) : InsertionSlice :=
  ⟨editId, f.timestamp, ⟨f.insertionOffset, f.insertionOffset + f.len⟩⟩

namespace Fragment

/-- `Fragment::is_visible`. -/
def isVisible (f : Fragment) (undos : UndoMap) : Bool :=
  !undos.isUndone f.timestamp && f.deletions.all fun d => undos.isUndone d

/-- `Fragment::was_visible`. -/
def wasVisible (f : Fragment) (version : Global) (undos : UndoMap) : Bool :=
  (version.observed f.timestamp && !undos.wasUndone f.timestamp version) &&
    f.deletions.all fun d => !version.observed d || undos.wasUndone d version

/-- The `text.visible` of a fragment's summary. -/
def visibleLen (f : Fragment) : Nat := if f.visible then f.len else 0

/-- The `text.deleted` of a fragment's summary. -/
def deletedLen (f : Fragment) : Nat := if f.visible then 0 else f.len

/-- The `max_version` of a fragment's summary: everything that ever touched it. -/
def maxVersion (f : Fragment) : Global :=
  (f.deletions.foldl Global.observe (Global.new.observe f.timestamp)).join f.maxUndos

end Fragment

/-- `summary().text.visible`. -/
def visibleLen (fragments : List Fragment) : Nat := (fragments.map Fragment.visibleLen).sum

/-- `summary().text.deleted`. -/
def deletedLen (fragments : List Fragment) : Nat := (fragments.map Fragment.deletedLen).sum

/-- `summary().max_id`. -/
def maxId (fragments : List Fragment) : Locator :=
  match fragments.getLast? with
  | none => Locator.min
  | some f => f.id

/-! ## The two texts -/

/-- The rest of the old texts, and the new ones so far. -/
structure RopeBuilder where
  oldVisible : List UInt8
  oldDeleted : List UInt8
  newVisible : List UInt8
  newDeleted : List UInt8

namespace RopeBuilder

/-- Move `len` bytes from one of the old texts to one of the new ones. -/
def push (r : RopeBuilder) (len : Nat) (wasVisible isVisible : Bool) : RopeBuilder :=
  let text := if wasVisible then r.oldVisible.take len else r.oldDeleted.take len
  { oldVisible := if wasVisible then r.oldVisible.drop len else r.oldVisible
    oldDeleted := if wasVisible then r.oldDeleted else r.oldDeleted.drop len
    newVisible := if isVisible then r.newVisible ++ text else r.newVisible
    newDeleted := if isVisible then r.newDeleted else r.newDeleted ++ text }

/-- `RopeBuilder::append`: the texts of fragments that are kept as they are. -/
def append (r : RopeBuilder) (fragments : List Fragment) : RopeBuilder :=
  (r.push (visibleLen fragments) true true).push (deletedLen fragments) false false

def pushFragment (r : RopeBuilder) (f : Fragment) (wasVisible : Bool) : RopeBuilder :=
  r.push f.len wasVisible f.visible

def pushStr (r : RopeBuilder) (text : List Char) : RopeBuilder :=
  { r with newVisible := r.newVisible ++ utf8 text }

/-- `RopeBuilder::finish`. -/
def finish (r : RopeBuilder) : List UInt8 × List UInt8 :=
  (r.newVisible ++ r.oldVisible, r.newDeleted ++ r.oldDeleted)

end RopeBuilder

/-! ## Cursors over the fragments -/

/-- What a cursor measures: the dimension it is sought in, and one it carries along. -/
structure Dimensions where
  pos : Fragment → Nat
  aux : Fragment → Nat

structure Cursor where
  start : Nat × Nat
  rest : List Fragment

namespace Cursor

variable (d : Dimensions)

/-- `Cursor::item`. -/
def item (c : Cursor) : Option Fragment := c.rest.head?

/-- `Cursor::end`, in the dimension it is sought in. -/
def stop (c : Cursor) : Nat :=
  match c.rest with
  | [] => c.start.1
  | f :: _ => c.start.1 + d.pos f

/-- `Cursor::next`. -/
def next (c : Cursor) : Cursor :=
  match c.rest with
  | [] => c
  | f :: rest => ⟨(c.start.1 + d.pos f, c.start.2 + d.aux f), rest⟩

/-- Whether a seek goes past a fragment that ends at `stop`. -/
def passes (target : Nat) (bias : Bias) (stop : Nat) : Bool :=
  stop < target || (bias == .right && stop == target)

/-- `Cursor::slice`: the fragments passed on the way to `target`. -/
def sliceFrom (target : Nat) (bias : Bias) : Nat × Nat → List Fragment → List Fragment × Cursor
  | start, [] => ([], ⟨start, []⟩)
  | start, f :: rest =>
    if passes target bias (start.1 + d.pos f) then
      let r := sliceFrom target bias (start.1 + d.pos f, start.2 + d.aux f) rest
      (f :: r.1, r.2)
    else ([], ⟨start, f :: rest⟩)

def slice (c : Cursor) (target : Nat) (bias : Bias) : List Fragment × Cursor :=
  sliceFrom d target bias c.start c.rest

end Cursor

/-- The dimensions of `apply_local_edit`: visible text, and deleted text beside it. -/
def FragmentTextSummary : Dimensions := ⟨Fragment.visibleLen, Fragment.deletedLen⟩

/-- The dimensions of `apply_remote_edit`: all text a version had observed, and visible
text beside it. -/
def VersionedFullOffset (version : Global) : Dimensions :=
  ⟨fun f => if version.observed f.timestamp then f.len else 0, Fragment.visibleLen⟩

structure BufferSnapshot where
  visibleText : List UInt8
  deletedText : List UInt8
  fragments : List Fragment
  insertions : List InsertionFragment
  insertionSlices : List InsertionSlice
  undoMap : UndoMap
  version : Global
  remoteId : Nat
  replicaId : Nat

end SpkEditor
