import Mathlib.Data.List.Basic

/-!
# The commit graph

`GraphData::add_commits`: commits come with children before parents, and each gets a row and a
lane. An edge to a parent that has not come yet occupies a lane of its own; when the parent comes,
every lane that waits for it becomes a line, and the lanes are free again.

`usize::MAX`, which is no row and no column, is `none`.
-/

namespace SpkEditor.Graph

/-- What can fail: an index, a subtraction of `usize`s, and the remainder of a colour. -/
inductive Panic where
  | index
  | subtraction
  | remainder

/-- `InitialGraphCommitData`, without the names of the refs. -/
structure Commit (Oid : Type) where
  sha : Oid
  parents : List Oid

inductive CurveKind where
  | merge
  | checkout

/-- `CommitLineSegment`. -/
inductive Segment where
  | straight (toRow : Option Nat)
  | curve (toColumn onRow : Option Nat) (kind : CurveKind)

/-- `LaneState::Active`. -/
structure ActiveLane (Oid : Type) where
  child : Oid
  parent : Oid
  color : Option Nat
  startingRow : Nat
  startingCol : Nat
  destinationColumn : Option Nat
  segments : List Segment

structure CommitLine (Oid : Type) where
  child : Oid
  parent : Oid
  childColumn : Nat
  /-- `full_interval` -/
  startRow : Nat
  endRow : Nat
  colorIdx : Nat
  segments : List Segment

structure CommitEntry (Oid : Type) where
  data : Commit Oid
  lane : Nat
  colorIdx : Nat

/-- `GraphData`. A lane that is empty is `none`, and a parent without lanes has none of them. -/
structure GraphData (Oid : Type) where
  laneStates : List (Option (ActiveLane Oid))
  laneColors : List (Nat × Nat)
  parentToLanes : Oid → List Nat
  nextColor : Nat
  accentColorsCount : Nat
  commits : List (CommitEntry Oid)
  maxLanes : Nat
  lines : List (CommitLine Oid)

variable {Oid : Type}

/-- `GraphData::new`. -/
def GraphData.new (accentColorsCount : Nat) : GraphData Oid :=
  ⟨[], [], fun _ => [], 0, accentColorsCount, [], 0, []⟩

/-- The segments of a lane when its parent comes: the last one was left open. -/
def finishSegments (segments : List Segment) (startingRow endingRow laneColumn destination : Nat) :
    Except Panic (List Segment) :=
  let init := segments.dropLast
  let checkout := Segment.curve (some destination) (some endingRow) .checkout
  -- `ending_row - 1`
  let rowBefore : Except Panic Nat :=
    if 1 ≤ endingRow then .ok (endingRow - 1) else .error .subtraction
  match segments.getLast? with
  | some (.straight none) =>
    if destination ≠ laneColumn then do
      let toRow ← rowBefore
      if toRow = startingRow then .ok (init ++ [checkout])
      else .ok (init ++ [.straight (some toRow), checkout])
    else .ok (init ++ [.straight (some endingRow)])
  | some (.curve toColumn none kind) =>
    let toColumn := toColumn.getD destination
    match kind with
    | .merge =>
      let onRow := startingRow + 1
      let curve := Segment.curve (some toColumn) (some onRow) .merge
      if onRow < endingRow then
        if toColumn ≠ destination then do
          let toRow ← rowBefore
          .ok (init ++ [curve, .straight (some toRow), checkout])
        else .ok (init ++ [curve, .straight (some endingRow)])
      else if toColumn ≠ destination then .ok (init ++ [curve, checkout])
      else .ok (init ++ [curve])
    | .checkout =>
      let curve := Segment.curve (some toColumn) (some endingRow) .checkout
      if toColumn ≠ destination then
        .ok (init ++ [curve, .straight (some endingRow), checkout])
      else .ok (init ++ [curve])
  | some (.curve toColumn (some onRow) _) =>
    if onRow < endingRow then
      if toColumn ≠ some destination then do
        let toRow ← rowBefore
        .ok (segments ++ [.straight (some toRow), checkout])
      else .ok (segments ++ [.straight (some endingRow)])
    else if toColumn ≠ some destination then .ok (segments ++ [checkout])
    else .ok segments
  | _ => .ok segments

/-- `LaneState::to_commit_lines`, for a lane that is active. -/
def ActiveLane.toCommitLines (a : ActiveLane Oid) (endingRow laneColumn parentColumn parentColor : Nat) :
    Except Panic (CommitLine Oid) := do
  let destination := a.destinationColumn.getD parentColumn
  let segments ← finishSegments a.segments a.startingRow endingRow laneColumn destination
  .ok
    { child := a.child
      parent := a.parent
      childColumn := a.startingCol
      startRow := a.startingRow
      endRow := endingRow
      colorIdx := a.color.getD parentColor
      segments := segments }

def Segment.endRow : Segment → Option Nat
  | .straight toRow => toRow
  | .curve _ onRow _ => onRow

def Segment.columnAfter (column : Nat) : Segment → Nat
  | .straight _ => column
  | .curve toColumn _ _ => toColumn.getD column

def Segment.reaches (s : Segment) (row : Nat) : Bool := s.endRow.all fun r => row ≤ r

/-- The loop of `get_first_visible_segment_idx`. -/
def firstVisibleFrom (row : Nat) : Nat → Nat → List Segment → Option (Nat × Nat)
  | _, _, [] => none
  | idx, column, s :: segments =>
    if s.reaches row then some (idx, column)
    else firstVisibleFrom row (idx + 1) (s.columnAfter column) segments

/-- `CommitLine::get_first_visible_segment_idx`. -/
def CommitLine.getFirstVisibleSegmentIdx (line : CommitLine Oid) (row : Nat) : Option (Nat × Nat) :=
  if line.endRow < row then none
  else if row ≤ line.startRow then some (0, line.childColumn)
  else firstVisibleFrom row 0 line.childColumn line.segments

/-! ## Commits -/

section

variable [DecidableEq Oid]

namespace GraphData

/-- `first_empty_lane_idx`. -/
def firstEmptyLaneIdx (g : GraphData Oid) : Nat × GraphData Oid :=
  if g.laneStates.findIdx Option.isNone < g.laneStates.length then
    (g.laneStates.findIdx Option.isNone, g)
  else (g.laneStates.length, { g with laneStates := g.laneStates ++ [none] })

/-- `get_lane_color`. -/
def getLaneColor (g : GraphData Oid) (lane : Nat) : Except Panic (Nat × GraphData Oid) :=
  match g.laneColors.lookup lane with
  | some color => .ok (color, g)
  | none =>
    -- `accent_colors_count as u8`
    if g.accentColorsCount % 256 = 0 then .error .remainder
    else
      .ok (g.nextColor,
        { g with
          laneColors := (lane, g.nextColor) :: g.laneColors
          nextColor := (g.nextColor + 1) % (g.accentColorsCount % 256) })

/-- A merge curve goes to the lane of the parent, unless a commit is in the way; then it stays in
its own lane. -/
def bendMerge (commits : List (CommitEntry Oid)) (commitRow commitLane laneColumn : Nat)
    (a : ActiveLane Oid) : ActiveLane Oid :=
  match a.segments with
  | .curve _ onRow .merge :: rest =>
    let curveRow := a.startingRow + 1
    let wouldOverlap := laneColumn ≠ commitLane ∧ curveRow < commitRow ∧
      ((commits.take commitRow).drop curveRow).any fun c => c.lane == commitLane
    if wouldOverlap then
      { a with segments := .curve (some laneColumn) onRow .merge :: rest }
    else a
  | _ => a

/-- A lane that waits for the commit becomes a line. -/
def closeLane (commitRow commitLane commitColor : Nat) (g : GraphData Oid) (laneColumn : Nat) :
    Except Panic (GraphData Oid) :=
  match g.laneStates[laneColumn]? with
  | none => .error .index
  | some none => .ok g
  | some (some a) => do
      let a := bendMerge g.commits commitRow commitLane laneColumn a
      let line ← a.toCommitLines commitRow laneColumn commitLane commitColor
      .ok { g with laneStates := g.laneStates.set laneColumn none, lines := g.lines ++ [line] }

/-- The lane is taken by an edge from a commit to one of its parents. -/
def openLane (g : GraphData Oid) (lane : Nat) (a : ActiveLane Oid) : Except Panic (GraphData Oid) :=
  if lane < g.laneStates.length then
    .ok
      { g with
        laneStates := g.laneStates.set lane (some a)
        parentToLanes := Function.update g.parentToLanes a.parent
          (g.parentToLanes a.parent ++ [lane]) }
  else .error .index

def openFirst (commit : Commit Oid) (commitRow commitLane commitColor : Nat) (g : GraphData Oid)
    (parent : Oid) : Except Panic (GraphData Oid) :=
  g.openLane commitLane
    { child := commit.sha
      parent := parent
      color := some commitColor
      startingRow := commitRow
      startingCol := commitLane
      destinationColumn := none
      segments := [.straight none] }

/-- Every other parent gets an empty lane. -/
def openMerge (commit : Commit Oid) (commitRow commitLane : Nat) (g : GraphData Oid)
    (parent : Oid) : Except Panic (GraphData Oid) :=
  let (lane, g) := g.firstEmptyLaneIdx
  g.openLane lane
    { child := commit.sha
      parent := parent
      color := none
      startingRow := commitRow
      startingCol := commitLane
      destinationColumn := none
      segments := [.curve none none .merge] }

def openParents (commit : Commit Oid) (commitRow commitLane commitColor : Nat) (g : GraphData Oid) :
    Except Panic (GraphData Oid) :=
  match commit.parents with
  | [] => .ok g
  | parent :: parents => do
      let g ← openFirst commit commitRow commitLane commitColor g parent
      parents.foldlM (openMerge commit commitRow commitLane) g

def commitLane (g : GraphData Oid) (sha : Oid) : Nat × GraphData Oid :=
  match (g.parentToLanes sha).head? with
  | some lane => (lane, g)
  | none => g.firstEmptyLaneIdx

/-- One round of `add_commits`. -/
def addCommit (g : GraphData Oid) (commit : Commit Oid) : Except Panic (GraphData Oid) := do
  let commitRow := g.commits.length
  let (lane, g) := g.commitLane commit.sha
  let (color, g) ← g.getLaneColor lane
  let lanes := g.parentToLanes commit.sha
  let g := { g with parentToLanes := Function.update g.parentToLanes commit.sha [] }
  let g ← lanes.foldlM (closeLane commitRow lane color) g
  let g ← openParents commit commitRow lane color g
  .ok
    { g with
      maxLanes := max g.maxLanes g.laneStates.length
      commits := g.commits ++ [⟨commit, lane, color⟩] }

/-- `add_commits`. -/
def addCommits (g : GraphData Oid) (commits : List (Commit Oid)) : Except Panic (GraphData Oid) :=
  commits.foldlM addCommit g

end GraphData

end

end SpkEditor.Graph
