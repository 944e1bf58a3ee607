import SpkEditor.Text.Fragment

/-!
# Applying an edit

`apply_local_edit` and `apply_remote_edit` rebuild the fragments in one pass over
the old ones. Both keep a cursor in the old fragments and the position `fragmentStart`
up to which the fragment under the cursor has been used; both jump ahead to an edit,
preserve what stands before it, insert its text, and walk through its range marking
what they meet as deleted. They differ in what a position counts (visible text, or
everything the author had seen), in where an insertion lands, and in what a deletion
takes.

`none` is a panic: an `unwrap` of a fragment that is not there.
-/

namespace SpkEditor

/-- How the crate is compiled: tests, with debug assertions, or a release. -/
inductive Profile where
  | test
  | release

/-- `cfg!(debug_assertions)`. -/
def Profile.debugAssertions : Profile → Bool
  | .test => true
  | .release => false

/-- `MAX_INSERTION_LEN`, which `cfg!(test)` shortens. -/
def Profile.maxInsertionLen : Profile → Nat
  | .test => 16
  | .release => 2 ^ 32 - 1

theorem Profile.four_le_maxInsertionLen (p : Profile) : 4 ≤ p.maxInsertionLen := by
  cases p <;> decide

/-- The local variables both loops share. -/
structure EditState where
  newRopes : RopeBuilder
  newFragments : List Fragment
  newInsertions : List InsertionFragment
  insertionSlices : List InsertionSlice
  editsPatch : Patch
  insertionOffset : Nat
  oldFragments : Cursor
  fragmentStart : Nat

namespace EditState

def new (s : BufferSnapshot) : EditState where
  newRopes := ⟨s.visibleText, s.deletedText, [], []⟩
  newFragments := []
  newInsertions := []
  insertionSlices := []
  editsPatch := []
  insertionOffset := 0
  oldFragments := ⟨(0, 0), s.fragments⟩
  fragmentStart := 0

/-- Emit a fragment. -/
def push (st : EditState) (f : Fragment) (wasVisible : Bool) : EditState :=
  { st with
    newRopes := st.newRopes.pushFragment f wasVisible
    newFragments := st.newFragments ++ [f] }

/-- Emit a fragment and file it among the insertions. -/
def pushNew (st : EditState) (f : Fragment) (wasVisible : Bool) : EditState :=
  { st.push f wasVisible with newInsertions := st.newInsertions ++ [.new f] }

/-- The current fragment from `fragmentStart` to `stop`. -/
def part (st : EditState) (f : Fragment) (stop : Nat) : Fragment :=
  { f with
    len := stop - st.fragmentStart
    insertionOffset := f.insertionOffset + (st.fragmentStart - st.oldFragments.start.1) }

/-- Reuse the fragments up to `target` as they are. -/
def appendSlice (d : Dimensions) (target : Nat) (bias : Bias) (st : EditState) : EditState :=
  let slice := st.oldFragments.slice d target bias
  { st with
    newRopes := st.newRopes.append slice.1
    newFragments := st.newFragments ++ slice.1
    oldFragments := slice.2
    fragmentStart := slice.2.start.1 }

/-- If the current fragment has been partially consumed, consume the rest of it and
advance to the next one. -/
def finishFragment (d : Dimensions) (st : EditState) : Option EditState :=
  if st.oldFragments.start.1 < st.fragmentStart then
    let stop := st.oldFragments.stop d
    if st.fragmentStart < stop then
      match st.oldFragments.item with
      | none => none
      | some f =>
        let suffix := st.part f stop
        some { st.pushNew suffix suffix.visible with oldFragments := st.oldFragments.next d }
    else some { st with oldFragments := st.oldFragments.next d }
  else some st

/-- If the current fragment ends before `target`, jump ahead to the first fragment that
extends past it. -/
def jumpTo (d : Dimensions) (target : Nat) (bias : Bias) (st : EditState) : Option EditState :=
  if st.oldFragments.stop d < target then
    (st.finishFragment d).map (appendSlice d target bias)
  else some st

/-- Preserve any portion of the current fragment that precedes `target`. -/
def preserveFront (target : Nat) (st : EditState) : Option EditState :=
  if st.fragmentStart < target then
    match st.oldFragments.item with
    | none => none
    | some f =>
      let front := { st.part f target with id := Locator.between (maxId st.newFragments) f.id }
      some { st.pushNew front front.visible with fragmentStart := target }
  else some st

/-- The loop of `push_fragments_for_insertion`: emit a fragment for each chunk of at most
`MAX_INSERTION_LEN` bytes. A chunk has at least one character, which bounds the rounds. -/
def pushChunks (cfg : Profile) (timestamp : Lamport) (nextId : Locator) :
    Nat → List Char → EditState → EditState
  | 0, _, st => st
  | fuel + 1, text, st =>
    if text = [] then st
    else
      let chunk :=
        if byteLen text ≤ cfg.maxInsertionLen then (text, [])
        else splitFloor cfg.maxInsertionLen text
      if chunk.1 = [] then st
      else
        let f : Fragment :=
          { id := Locator.between (maxId st.newFragments) nextId
            timestamp := timestamp
            insertionOffset := st.insertionOffset
            len := byteLen chunk.1
            visible := true
            deletions := []
            maxUndos := Global.new }
        pushChunks cfg timestamp nextId fuel chunk.2
          { st with
            newFragments := st.newFragments ++ [f]
            newInsertions := st.newInsertions ++ [.new f]
            insertionSlices := st.insertionSlices ++ [.fromFragment timestamp f]
            insertionOffset := st.insertionOffset + byteLen chunk.1 }

/-- `push_fragments_for_insertion`. -/
def pushFragmentsForInsertion (cfg : Profile) (newText : List Char) (timestamp : Lamport)
    (nextId : Locator) (st : EditState) : EditState :=
  let st := pushChunks cfg timestamp nextId newText.length newText st
  { st with newRopes := st.newRopes.pushStr newText }

def nextFragmentId (st : EditState) : Locator :=
  match st.oldFragments.item with
  | none => Locator.max
  | some f => f.id

def insertText (cfg : Profile) (timestamp : Lamport) (oldStart : Nat) (newText : List Char)
    (st : EditState) : EditState :=
  if newText = [] then st
  else
    let newStart := visibleLen st.newFragments
    let st := st.pushFragmentsForInsertion cfg newText timestamp st.nextFragmentId
    { st with
      editsPatch := st.editsPatch.push
        ⟨⟨oldStart, oldStart⟩, ⟨newStart, newStart + byteLen newText⟩⟩ }

/-- Take over the rest of the old fragments, and put the new snapshot together. -/
def finish (d : Dimensions) (s : BufferSnapshot) (st : EditState) :
    Option (BufferSnapshot × Patch) :=
  match st.finishFragment d with
  | none => none
  | some st =>
    let texts := (st.newRopes.append st.oldFragments.rest).finish
    some ({ s with
      fragments := st.newFragments ++ st.oldFragments.rest
      insertions := KeyedList.upsert InsertionFragment.key s.insertions st.newInsertions
      insertionSlices :=
        KeyedList.upsert InsertionSlice.key s.insertionSlices st.insertionSlices
      visibleText := texts.1
      deletedText := texts.2 }, st.editsPatch)

/-! ## Local edits -/

/-- Mark the intersection of the current fragment with the range as deleted. -/
def deleteStepLocal (timestamp : Lamport) (stop : Nat) (f : Fragment) (st : EditState) :
    EditState :=
  let intersectionEnd := min stop (st.oldFragments.stop FragmentTextSummary)
  let intersection :=
    if f.visible then
      { st.part f intersectionEnd with
        id := Locator.between (maxId st.newFragments) f.id
        deletions := f.deletions ++ [timestamp]
        visible := false }
    else f
  if 0 < intersection.len then
    let newStart := visibleLen st.newFragments
    let st :=
      if f.visible && !intersection.visible then
        { st with
          editsPatch := st.editsPatch.push
            ⟨⟨st.fragmentStart, intersectionEnd⟩, ⟨newStart, newStart⟩⟩
          insertionSlices := st.insertionSlices ++ [.fromFragment timestamp intersection] }
      else st
    { st.pushNew intersection f.visible with fragmentStart := intersectionEnd }
  else st

/-- Advance through every fragment that intersects the range. The fragments are those the
cursor has not passed. A fragment that extends past the range is the last one: `stop` has
been reached in it. -/
def deleteLocal (timestamp : Lamport) (stop : Nat) : List Fragment → EditState → Option EditState
  | [], st => if st.fragmentStart < stop then none else some st
  | f :: rest, st =>
    if st.fragmentStart < stop then
      let fragmentEnd := st.oldFragments.stop FragmentTextSummary
      let st := st.deleteStepLocal timestamp stop f
      if fragmentEnd ≤ stop then
        deleteLocal timestamp stop rest
          { st with oldFragments := st.oldFragments.next FragmentTextSummary }
      else some st
    else some st

/-- One edit of `apply_local_edit`, with the range it has in full offsets. -/
def editLocal (cfg : Profile) (timestamp : Lamport) (range : Range) (newText : List Char)
    (st : EditState) : Option (EditState × Range) :=
  match st.jumpTo FragmentTextSummary range.start .right with
  | none => none
  | some st =>
  let fullStart := range.start + st.oldFragments.start.2
  match st.preserveFront range.start with
  | none => none
  | some st =>
  let st := st.insertText cfg timestamp st.fragmentStart newText
  match deleteLocal timestamp range.stop st.oldFragments.rest st with
  | none => none
  | some st => some (st, ⟨fullStart, range.stop + st.oldFragments.start.2⟩)

/-- The edits of `apply_local_edit` in order. -/
def editsLocal (cfg : Profile) (timestamp : Lamport) :
    List (Range × List Char) → EditState → Option (EditState × List Range)
  | [], st => some (st, [])
  | (range, newText) :: edits, st =>
    match st.editLocal cfg timestamp range newText with
    | none => none
    | some (st, full) =>
    match editsLocal cfg timestamp edits st with
    | none => none
    | some (st, ranges) => some (st, full :: ranges)

/-! ## Remote edits -/

/-- If we are at the end of a fragment the author had seen, advance to the next one. -/
def advancePast (d : Dimensions) (target : Nat) (st : EditState) : Option EditState :=
  let fragmentEnd := st.oldFragments.stop d
  if fragmentEnd = target ∧ st.fragmentStart < fragmentEnd then
    match st.oldFragments.item with
    | none => none
    | some f =>
      let rest := st.part f fragmentEnd
      let next := st.oldFragments.next d
      some { st.pushNew rest rest.visible with
        oldFragments := next
        fragmentStart := next.start.1 }
  else some st

/-- Skip over insertions at the same place that are concurrent to this edit and have a
larger timestamp. The fragments are those the cursor has not passed. -/
def skipConcurrent (d : Dimensions) (target : Nat) (timestamp : Lamport) :
    List Fragment → EditState → EditState
  | [], st => st
  | f :: rest, st =>
    if st.fragmentStart = target ∧ timestamp < f.timestamp then
      skipConcurrent d target timestamp rest
        { st.push f f.visible with oldFragments := st.oldFragments.next d }
    else st

/-- Where an insertion goes in the visible text as it was. -/
def oldStartRemote (st : EditState) : Nat :=
  match st.oldFragments.item with
  | none => st.oldFragments.start.2
  | some f =>
    if f.visible then st.oldFragments.start.2 + (st.fragmentStart - st.oldFragments.start.1)
    else st.oldFragments.start.2

/-- Mark the intersection of the current fragment with the range as deleted, if the author
could see it. -/
def deleteStepRemote (version : Global) (undoMap : UndoMap) (timestamp : Lamport) (stop : Nat)
    (f : Fragment) (st : EditState) : EditState :=
  let intersectionEnd := min stop (st.oldFragments.stop (VersionedFullOffset version))
  let cut :=
    { st.part f intersectionEnd with id := Locator.between (maxId st.newFragments) f.id }
  let deleted := { cut with deletions := f.deletions ++ [timestamp], visible := false }
  let deletes := version.observed f.timestamp && f.wasVisible version undoMap
  let intersection :=
    if version.observed f.timestamp then (if f.wasVisible version undoMap then deleted else cut)
    else f
  let st :=
    if deletes then
      { st with insertionSlices := st.insertionSlices ++ [.fromFragment timestamp intersection] }
    else st
  if 0 < intersection.len then
    let oldStart := st.oldFragments.start.2 + (st.fragmentStart - st.oldFragments.start.1)
    let newStart := visibleLen st.newFragments
    let st :=
      if f.visible && !intersection.visible then
        { st with
          editsPatch := st.editsPatch.push
            ⟨⟨oldStart, oldStart + intersection.len⟩, ⟨newStart, newStart⟩⟩ }
      else st
    { st.pushNew intersection f.visible with fragmentStart := intersectionEnd }
  else st

/-- Advance through every fragment that intersects the range. -/
def deleteRemote (version : Global) (undoMap : UndoMap) (timestamp : Lamport) (stop : Nat) :
    List Fragment → EditState → Option EditState
  | [], st => if st.fragmentStart < stop then none else some st
  | f :: rest, st =>
    if st.fragmentStart < stop then
      let fragmentEnd := st.oldFragments.stop (VersionedFullOffset version)
      let st := st.deleteStepRemote version undoMap timestamp stop f
      if fragmentEnd ≤ stop then
        deleteRemote version undoMap timestamp stop rest
          { st with oldFragments := st.oldFragments.next (VersionedFullOffset version) }
      else some st
    else some st

/-- One edit of `apply_remote_edit`. -/
def editRemote (cfg : Profile) (version : Global) (undoMap : UndoMap) (timestamp : Lamport)
    (range : Range) (newText : List Char) (st : EditState) : Option EditState :=
  let d := VersionedFullOffset version
  match st.jumpTo d range.start .left with
  | none => none
  | some st =>
  match st.advancePast d range.start with
  | none => none
  | some st =>
  let st := skipConcurrent d range.start timestamp st.oldFragments.rest st
  match st.preserveFront range.start with
  | none => none
  | some st =>
  let st := st.insertText cfg timestamp st.oldStartRemote newText
  deleteRemote version undoMap timestamp range.stop st.oldFragments.rest st

/-- The edits of `apply_remote_edit` in order. -/
def editsRemote (cfg : Profile) (version : Global) (undoMap : UndoMap) (timestamp : Lamport) :
    List (Range × List Char) → EditState → Option EditState
  | [], st => some st
  | (range, newText) :: edits, st =>
    match st.editRemote cfg version undoMap timestamp range newText with
    | none => none
    | some st => editsRemote cfg version undoMap timestamp edits st

end EditState

namespace BufferSnapshot

/-- `apply_local_edit`: the new snapshot, the patch to publish, and the operation. -/
def applyLocalEdit (cfg : Profile) (s : BufferSnapshot) (edits : List (Range × List Char))
    (timestamp : Lamport) : Option (BufferSnapshot × Patch × EditOperation) :=
  match edits with
  | [] => none
  | (first, _) :: _ =>
  let edits := edits.map fun e => (e.1, normalize e.2)
  let st := (EditState.new s).appendSlice FragmentTextSummary first.start .right
  match st.editsLocal cfg timestamp edits with
  | none => none
  | some (st, ranges) =>
  match st.finish FragmentTextSummary s with
  | none => none
  | some (s', patch) => some (s', patch, ⟨timestamp, s.version, ranges, edits.map Prod.snd⟩)

/-- `apply_remote_edit`: the new snapshot and the patch to publish. Without ranges it
returns early, and publishes nothing. -/
def applyRemoteEdit (cfg : Profile) (s : BufferSnapshot) (op : EditOperation) :
    Option (BufferSnapshot × Option Patch) :=
  match op.ranges with
  | [] => some (s, none)
  | first :: _ =>
  let d := VersionedFullOffset op.version
  let st := (EditState.new s).appendSlice d first.start .left
  match st.editsRemote cfg op.version s.undoMap op.timestamp (op.ranges.zip op.newText) with
  | none => none
  | some st => (st.finish d s).map fun r => (r.1, some r.2)

end BufferSnapshot

end SpkEditor
