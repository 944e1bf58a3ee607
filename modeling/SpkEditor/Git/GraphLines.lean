import SpkEditor.Git.Graph

/-!
# The shapes of lines

There are five shapes that a line can have, by how its lane was opened and where the parent turns
up (`Drawn`). Everything that is said about a single line is read off its shape.
-/

namespace SpkEditor.Graph

variable {Oid : Type}

/-- The segments of a line from row `s` and column `c` to row `e` and column `p`. -/
inductive Drawn (s e c p : Nat) : List Segment → Prop
  /-- straight down to the parent -/
  | down : c = p → s < e → Drawn s e c p [.straight (some e)]
  /-- straight down, and over to the parent in the last row -/
  | checkout : s + 1 < e →
      Drawn s e c p [.straight (some (e - 1)), .curve (some p) (some e) .checkout]
  /-- over to a parent in the next row -/
  | across : e = s + 1 → Drawn s e c p [.curve (some p) (some e) .checkout]
  /-- over to the column of the parent, and down to it -/
  | merge : s + 1 < e →
      Drawn s e c p [.curve (some p) (some (s + 1)) .merge, .straight (some e)]
  | mergeAcross : e = s + 1 → Drawn s e c p [.curve (some p) (some (s + 1)) .merge]

/-- A line is on a cell if one of its straight segments goes through it. -/
def OnVertical : Nat → Nat → List Segment → Nat → Nat → Prop
  | _, _, [], _, _ => False
  | col, row, .straight (some toRow) :: segments, c, r =>
    (c = col ∧ row ≤ r ∧ r ≤ toRow) ∨ OnVertical col toRow segments c r
  | col, row, .straight none :: _, c, r => c = col ∧ row ≤ r
  | col, row, .curve toColumn onRow _ :: segments, c, r =>
    OnVertical (toColumn.getD col) (onRow.getD row) segments c r

/-- The column `c` and the row `r` are on a vertical part of the line. -/
def CommitLine.OnVertical (line : CommitLine Oid) (c r : Nat) : Prop :=
  Graph.OnVertical line.childColumn line.startRow line.segments c r

/-- Nothing of a segment is left open. -/
def Segment.Finished : Segment → Prop
  | .straight toRow => toRow.isSome
  | .curve toColumn onRow _ => toColumn.isSome ∧ onRow.isSome

def CommitLine.endColumn (line : CommitLine Oid) : Nat :=
  line.segments.foldl Segment.columnAfter line.childColumn

def CommitLine.RowsIncrease (line : CommitLine Oid) : Prop :=
  ∃ rows, line.segments.map Segment.endRow = rows.map some ∧
    (line.startRow :: rows).Pairwise (· < ·) ∧ rows.getLast? = some line.endRow

def CommitLine.FirstReaching (line : CommitLine Oid) (row : Nat) (found : Nat × Nat) : Prop :=
  (∃ s, line.segments[found.1]? = some s ∧ s.reaches row = true) ∧
    (∀ j < found.1, ∀ s, line.segments[j]? = some s → s.reaches row = false) ∧
    found.2 = (line.segments.take found.1).foldl Segment.columnAfter line.childColumn

namespace Drawn

variable {s e c p : Nat} {segments : List Segment}

section

variable (h : Drawn s e c p segments)
include h

theorem finished : ∀ x ∈ segments, x.Finished := by
  cases h <;> simp [Segment.Finished]

theorem endColumn : segments.foldl Segment.columnAfter c = p := by
  cases h with
  | down hcp _ => exact hcp
  | checkout _ => rfl
  | across _ => rfl
  | merge _ => rfl
  | mergeAcross _ => rfl

theorem rows : ∃ rows, segments.map Segment.endRow = rows.map some ∧
    (s :: rows).Pairwise (· < ·) ∧ rows.getLast? = some e := by
  cases h with
  | down _ hlt => exact ⟨[e], rfl, by simpa using hlt, rfl⟩
  | checkout hlt => exact ⟨[e - 1, e], rfl, by simp; omega, rfl⟩
  | across he => exact ⟨[e], rfl, by simp; omega, rfl⟩
  | merge hlt => exact ⟨[s + 1, e], rfl, by simp; omega, rfl⟩
  | mergeAcross he => exact ⟨[s + 1], rfl, by simp, by rw [he]; rfl⟩

/-- A vertical part between the two rows is in the column of the child, if the line starts with a
straight segment, or in the column of the parent. -/
theorem onVertical {col row : Nat} (hv : OnVertical c s segments col row) :
    s ≤ row ∧ row ≤ e ∧ ((col = c ∧ ∃ r rest, segments = .straight r :: rest ∧ (row = e → c = p)) ∨
      (col = p ∧ s < row ∧ ∃ r rest, segments = .curve (some p) r .merge :: rest)) := by
  cases h with
  | down hcp hlt =>
    simp only [OnVertical, or_false] at hv
    exact ⟨hv.2.1, hv.2.2, .inl ⟨hv.1, _, _, rfl, fun _ => hcp⟩⟩
  | checkout hlt =>
    simp only [OnVertical, or_false] at hv
    exact ⟨hv.2.1, by omega, .inl ⟨hv.1, _, _, rfl, fun he => by omega⟩⟩
  | across he => exact hv.elim
  | merge hlt =>
    simp only [OnVertical, or_false, Option.getD_some] at hv
    exact ⟨by omega, hv.2.2, .inr ⟨hv.1, by omega, _, _, rfl⟩⟩
  | mergeAcross he => exact hv.elim

end

end Drawn

/-! ## Lanes become lines -/

/-- A lane that waits for a parent: it was opened by the first parent of a commit, in the column of
the commit, or by another one. -/
def ActiveLane.Waits (a : ActiveLane Oid) (lane : Nat) : Prop :=
  a.destinationColumn = none ∧ ((a.segments = [.straight none] ∧ lane = a.startingCol) ∨
      a.segments = [.curve none none .merge])

section

variable {a : ActiveLane Oid} {lane : Nat} (h : a.Waits lane) {endingRow parentColumn : Nat}
  (hlt : a.startingRow < endingRow)
include h hlt

theorem ActiveLane.Waits.finishSegments : ∃ segments,
      Graph.finishSegments a.segments a.startingRow endingRow lane parentColumn = .ok segments ∧
      Drawn a.startingRow endingRow a.startingCol parentColumn segments ∧
      ((∃ r rest, segments = .straight r :: rest) → lane = a.startingCol) := by
  have hone : 1 ≤ endingRow := by omega
  rcases h.2 with ⟨hseg, hlane⟩ | hseg
  · by_cases hcol : parentColumn = lane
    · refine ⟨_, ?_, .down (hlane ▸ hcol.symm) hlt, fun _ => hlane⟩
      simp [Graph.finishSegments, hseg, hcol]
    · by_cases hnext : endingRow - 1 = a.startingRow
      · refine ⟨_, ?_, .across (by omega), fun _ => hlane⟩
        simp only [Graph.finishSegments, hseg, List.getLast?_singleton, hcol, hone, ne_eq,
          not_false_eq_true, if_true]
        exact if_pos hnext
      · refine ⟨_, ?_, .checkout (by omega), fun _ => hlane⟩
        simp only [Graph.finishSegments, hseg, List.getLast?_singleton, hcol, hone, ne_eq,
          not_false_eq_true, if_true]
        exact if_neg hnext
  · by_cases hnext : a.startingRow + 1 < endingRow
    · refine ⟨_, ?_, .merge hnext, ?_⟩
      · simp [Graph.finishSegments, hseg, hnext]
      · rintro ⟨r, rest, heq⟩
        cases heq
    · refine ⟨_, ?_, .mergeAcross (by omega), ?_⟩
      · simp [Graph.finishSegments, hseg, hnext]
      · rintro ⟨r, rest, heq⟩
        cases heq

theorem ActiveLane.Waits.toCommitLines (color : Nat) :
    ∃ line, a.toCommitLines endingRow lane parentColumn color = .ok line ∧
      line.child = a.child ∧ line.parent = a.parent ∧ line.childColumn = a.startingCol ∧
      line.startRow = a.startingRow ∧ line.endRow = endingRow ∧
      Drawn a.startingRow endingRow a.startingCol parentColumn line.segments ∧
      ((∃ r rest, line.segments = .straight r :: rest) → lane = a.startingCol) := by
  obtain ⟨segments, hfin, hdrawn, hstraight⟩ := @ActiveLane.Waits.finishSegments _ a lane h
    endingRow parentColumn hlt
  refine ⟨⟨a.child, a.parent, a.startingCol, a.startingRow, endingRow, a.color.getD color, segments⟩,
    ?_, rfl, rfl, rfl, rfl, rfl, hdrawn, hstraight⟩
  rw [ActiveLane.toCommitLines, h.1, Option.getD_none]
  simp only [hfin]
  rfl

end

theorem firstVisibleFrom_spec {row : Nat} : ∀ {segments : List Segment} {idx column : Nat},
    (∃ x ∈ segments, x.reaches row = true) →
    ∃ i s, firstVisibleFrom row idx column segments =
        some (idx + i, (segments.take i).foldl Segment.columnAfter column) ∧
      segments[i]? = some s ∧ s.reaches row = true ∧
      ∀ j < i, ∀ x, segments[j]? = some x → x.reaches row = false
  | [], _, _, ⟨x, hx, _⟩ => by simp at hx
  | s :: segments, idx, column, h => by
      rw [firstVisibleFrom]
      split
      · next hs => exact ⟨0, s, rfl, rfl, hs, by simp⟩
      · next hs =>
        have hrest : ∃ x ∈ segments, x.reaches row = true := by
          obtain ⟨x, hx, hr⟩ := h
          rcases List.mem_cons.mp hx with rfl | hx
          · exact absurd hr hs
          · exact ⟨x, hx, hr⟩
        obtain ⟨i, x, h1, h2, h3, h4⟩ := @firstVisibleFrom_spec row segments (idx + 1)
          (s.columnAfter column) hrest
        refine ⟨i + 1, x, ?_, by simpa using h2, h3, ?_⟩
        · rw [h1, Nat.add_assoc, Nat.add_comm 1 i]
          rfl
        · intro j hj y hy
          cases j with
          | zero =>
            simp only [List.getElem?_cons_zero, Option.some.injEq] at hy
            subst hy
            simpa using hs
          | succ j => exact h4 j (by omega) y (by simpa using hy)

theorem getFirstVisibleSegmentIdx_spec {line : CommitLine Oid} {p : Nat}
    (h : Drawn line.startRow line.endRow line.childColumn p line.segments) {row : Nat}
    (hrow : row ≤ line.endRow) :
    ∃ found, line.getFirstVisibleSegmentIdx row = some found ∧ line.FirstReaching row found := by
  rw [CommitLine.getFirstVisibleSegmentIdx, if_neg (by omega)]
  split
  · -- the first segment ends behind the row of the child
    next hle =>
    refine ⟨_, rfl, ?_, by simp, rfl⟩
    cases hs : line.segments <;> rw [hs] at h <;> cases h <;>
      simp [Segment.reaches, Segment.endRow] <;> omega
  · next hlt =>
    have hreach : ∃ x ∈ line.segments, x.reaches row = true := by
      cases hs : line.segments <;> rw [hs] at h <;> cases h <;>
        simp [Segment.reaches, Segment.endRow] <;> omega
    obtain ⟨i, s, h1, h2, h3, h4⟩ := @firstVisibleFrom_spec row line.segments 0
      line.childColumn hreach
    exact ⟨_, h1, ⟨s, by simpa using h2, h3⟩, by simpa using h4, by simp⟩

end SpkEditor.Graph
