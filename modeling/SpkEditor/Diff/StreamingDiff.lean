import SpkEditor.Lib.Utf8
import SpkEditor.Text.Patch

/-!
# The streaming diff

A diff between an old text and a new one that arrives in pieces. A score is kept for
every prefix of the old text and every prefix of the new one; after each piece the best
prefix of the old text is taken as settled, and the way there is traced back through the
scores. Only the columns of the current piece are kept.

Scores are left abstract (`Scoring`): which way is taken depends on them, and nothing
else does. `none` is a panic, or a loop that does not end.
-/

namespace SpkEditor

/-- What is done with scores. The source has `f64`, with `OrderedFloat` to compare. -/
structure Scoring (S : Type) where
  zero : S
  negInfinity : S
  /-- `i as f64 * DELETION_SCORE`. -/
  deletionAt : Nat → S
  /-- `j as f64 * INSERTION_SCORE`. -/
  insertionAt : Nat → S
  /-- `+ INSERTION_SCORE`. -/
  insertion : S → S
  /-- `+ DELETION_SCORE`. -/
  deletion : S → S
  /-- `+ EQUALITY_BASE.powi(exponent)`. -/
  equality : S → Nat → S
  max : S → S → S
  /-- `>` on `f64`. -/
  gt : S → S → Bool
  /-- `Ordering::Greater` on `OrderedFloat`. -/
  cmpGreater : S → S → Bool

structure Matrix (S : Type) where
  cells : List S
  rows : Nat
  cols : Nat

namespace Matrix

variable {S : Type}

def new : Matrix S := ⟨[], 0, 0⟩

/-- `Vec::resize`. -/
def resizeCells (cells : List S) (len : Nat) (fill : S) : List S :=
  cells.take len ++ List.replicate (len - cells.length) fill

def resize (sc : Scoring S) (m : Matrix S) (rows cols : Nat) : Matrix S :=
  ⟨resizeCells m.cells (rows * cols) sc.zero, rows, cols⟩

/-- Where a cell comes from when two columns are swapped. -/
def swapped (rows col1 col2 k : Nat) : Nat :=
  if k / rows = col1 then col2 * rows + k % rows
  else if k / rows = col2 then col1 * rows + k % rows
  else k

def swapColumns (sc : Scoring S) (m : Matrix S) (col1 col2 : Nat) : Option (Matrix S) :=
  if col1 = col2 then some m
  else if m.cols ≤ col1 then none
  else if m.cols ≤ col2 then none
  else some { m with
    cells := (List.range m.cells.length).map fun k => m.cells.getD (swapped m.rows col1 col2 k) sc.zero }

def get (m : Matrix S) (row col : Nat) : Option S :=
  if m.rows ≤ row then none
  else if m.cols ≤ col then none
  else m.cells[col * m.rows + row]?

def set (m : Matrix S) (row col : Nat) (value : S) : Option (Matrix S) :=
  if m.rows ≤ row then none
  else if m.cols ≤ col then none
  else if m.cells.length ≤ col * m.rows + row then none
  else some { m with cells := m.cells.set (col * m.rows + row) value }

end Matrix

inductive CharOperation where
  | insert (text : List Char)
  | delete (bytes : Nat)
  | keep (bytes : Nat)

abbrev EqualRuns := List ((Nat × Nat) × Nat)

structure StreamingDiff (S : Type) where
  old : List Char
  new : List Char
  scores : Matrix S
  oldTextIx : Nat
  newTextIx : Nat
  equalRuns : EqualRuns

def MAX_EQUALITY_EXPONENT : Nat := 16

namespace StreamingDiff

variable {S : Type}

/-- `StreamingDiff::new`. -/
def start (sc : Scoring S) (old : List Char) : Option (StreamingDiff S) :=
  let scores := Matrix.new.resize sc (old.length + 1) 1
  ((List.range (old.length + 1)).foldlM (fun (m : Matrix S) i => m.set i 0 (sc.deletionAt i)) scores).map fun scores =>
    ⟨old, [], scores, 0, 0, []⟩

def scoreCell (sc : Scoring S) (old new : List Char) (newTextIx j : Nat) (st : Matrix S × EqualRuns)
    (i : Nat) : Option (Matrix S × EqualRuns) := do
  let relativeJ := j - newTextIx
  let insertionScore := sc.insertion (← st.1.get i (relativeJ - 1))
  let deletionScore := sc.deletion (← st.1.get (i - 1) relativeJ)
  let o ← old[i - 1]?
  let n ← new[j - 1]?
  let (equalityScore, runs) ←
    if o = n then do
      let equalRun := ((st.2.lookup (i - 1, j - 1)).getD 0) + 1
      let exponent := min (equalRun / 4) MAX_EQUALITY_EXPONENT
      let diagonal ← st.1.get (i - 1) (relativeJ - 1)
      pure (sc.equality diagonal exponent, ((i, j), equalRun) :: st.2)
    else pure (sc.negInfinity, st.2)
  let score := sc.max (sc.max insertionScore deletionScore) equalityScore
  let m ← st.1.set i relativeJ score
  pure (m, runs)

def scoreColumn (sc : Scoring S) (old new : List Char) (newTextIx : Nat) (st : Matrix S × EqualRuns)
    (j : Nat) : Option (Matrix S × EqualRuns) := do
  let m ← st.1.set 0 (j - newTextIx) (sc.insertionAt j)
  (List.range' 1 old.length).foldlM (scoreCell sc old new newTextIx j) (m, st.2)

/-- How much of the old text is settled: the best cell of a column. -/
def bestRow (sc : Scoring S) (m : Matrix S) (col : Nat) (best : S × Nat) (i : Nat) : Option (S × Nat) := do
  let score ← m.get i col
  pure (if sc.gt score best.1 then (score, i) else best)

/-! ## Tracing back -/

/-- `Ord::cmp` on keys, asked for `Greater`: no key is below every key. -/
def keyGreater (sc : Scoring S) : Option S → Option S → Bool
  | some a, some b => sc.cmpGreater a b
  | some _, none => true
  | none, _ => false

def keyOf (m : Matrix S) (newTextIx : Nat) : Option (Nat × Nat) → Option (Option S)
  | none => some none
  | some (i, j) => (m.get i (j - newTextIx)).map some

/-- `max_by_key` on three cells: the last of the greatest. -/
def maxByKey (sc : Scoring S) (m : Matrix S) (newTextIx : Nat) (a b c : Option (Nat × Nat)) :
    Option (Option (Nat × Nat)) := do
  let ka ← keyOf m newTextIx a
  let kb ← keyOf m newTextIx b
  let (x, kx) := if keyGreater sc ka kb then (a, ka) else (b, kb)
  let kc ← keyOf m newTextIx c
  pure (if keyGreater sc kx kc then x else c)

/-- `self.new[range].iter().collect()`. -/
def newSlice (new : List Char) (r : Range) : Option (List Char) :=
  if r.start ≤ r.stop ∧ r.stop ≤ new.length then some ((new.take r.stop).drop r.start) else none

/-- A pending insertion takes in one more character. -/
def extendInsert (prevJ j : Nat) : Option Range → Option Range
  | some r => some ⟨prevJ, r.stop⟩
  | none => some ⟨prevJ, j⟩

/-- A pending insertion becomes a hunk. -/
def flushInsert (new : List Char) (pending : Option Range) (hunks : List CharOperation) :
    Option (List CharOperation) :=
  match pending with
  | none => some hunks
  | some r => (newSlice new r).map fun text => .insert text :: hunks

def pushDelete (len : Nat) : List CharOperation → List CharOperation
  | .delete bytes :: hunks => .delete (bytes + len) :: hunks
  | hunks => .delete len :: hunks

def pushKeep (len : Nat) : List CharOperation → List CharOperation
  | .keep bytes :: hunks => .keep (bytes + len) :: hunks
  | hunks => .keep len :: hunks

/-- The cells the way can have come from: by an insertion, a deletion, or an equal character. -/
def sources (d : StreamingDiff S) (i j : Nat) :
    Option (Option (Nat × Nat) × Option (Nat × Nat) × Option (Nat × Nat)) := do
  let insertionScore := if d.newTextIx < j then some (i, j - 1) else none
  let deletionScore := if d.oldTextIx < i then some (i - 1, j) else none
  let equalityScore ←
    if d.oldTextIx < i ∧ d.newTextIx < j then do
      let o ← d.old[i - 1]?
      let n ← d.new[j - 1]?
      pure (if o = n then some (i - 1, j - 1) else none)
    else pure none
  pure (insertionScore, deletionScore, equalityScore)

/-- The loop of `backtrack`. Hunks are kept with the last one first, which is the order they
are returned in. -/
def backtrackFrom (sc : Scoring S) (d : StreamingDiff S) :
    Nat → Nat → Nat → Option Range → List CharOperation → Option (List CharOperation)
  | 0, i, j, pending, hunks =>
    if (i, j) = (d.oldTextIx, d.newTextIx) then flushInsert d.new pending hunks else none
  | fuel + 1, i, j, pending, hunks =>
    if (i, j) = (d.oldTextIx, d.newTextIx) then flushInsert d.new pending hunks
    else do
      let (insertionScore, deletionScore, equalityScore) ← d.sources i j
      let cell ← maxByKey sc d.scores d.newTextIx insertionScore deletionScore equalityScore
      let (prevI, prevJ) ← cell
      if prevI = i ∧ prevJ = j - 1 then
        backtrackFrom sc d fuel prevI prevJ (extendInsert prevJ j pending) hunks
      else do
        let hunks ← flushInsert d.new pending hunks
        let c ← d.old[i - 1]?
        let hunks :=
          if prevI = i - 1 ∧ prevJ = j then pushDelete c.utf8Size hunks else pushKeep c.utf8Size hunks
        backtrackFrom sc d fuel prevI prevJ none hunks

/-- `backtrack`. Every turn takes a character off one of the texts. -/
def backtrack (sc : Scoring S) (d : StreamingDiff S) (oldTextIx newTextIx : Nat) :
    Option (List CharOperation) :=
  backtrackFrom sc d (oldTextIx + newTextIx) oldTextIx newTextIx none []

/-- `push_new`. -/
def pushNew (sc : Scoring S) (d : StreamingDiff S) (text : List Char) :
    Option (StreamingDiff S × List CharOperation) := do
  let new := d.new ++ text
  let scores ← d.scores.swapColumns sc 0 (d.scores.cols - 1)
  let scores := scores.resize sc (d.old.length + 1) (new.length - d.newTextIx + 1)
  let equalRuns := d.equalRuns.filter fun run => run.1.2 = d.newTextIx
  let (scores, equalRuns) ← (List.range' (d.newTextIx + 1) (new.length - d.newTextIx)).foldlM
      (scoreColumn sc d.old new d.newTextIx) (scores, equalRuns)
  let (_, nextOldTextIx) ← (List.range' d.oldTextIx (d.old.length + 1 - d.oldTextIx)).foldlM
      (bestRow sc scores (new.length - d.newTextIx)) (sc.negInfinity, d.oldTextIx)
  let d := { d with new, scores, equalRuns }
  let hunks ← d.backtrack sc nextOldTextIx new.length
  pure ({ d with oldTextIx := nextOldTextIx, newTextIx := new.length }, hunks)

/-- `finish`. -/
def finish (sc : Scoring S) (d : StreamingDiff S) : Option (List CharOperation) :=
  d.backtrack sc d.old.length d.new.length

def pushAll (sc : Scoring S) : StreamingDiff S → List (List Char) →
    Option (StreamingDiff S × List (List CharOperation))
  | d, [] => some (d, [])
  | d, text :: texts => do
      let (d, hunks) ← d.pushNew sc text
      let (d, rest) ← pushAll sc d texts
      pure (d, hunks :: rest)

end StreamingDiff

/-- The first bytes of a text, if they end at a character boundary. -/
def splitBytes : Nat → List Char → Option (List Char × List Char)
  | 0, text => some ([], text)
  | _ + 1, [] => none
  | n + 1, c :: text =>
    if c.utf8Size ≤ n + 1 then (splitBytes (n + 1 - c.utf8Size) text).map fun r => (c :: r.1, r.2)
    else none

def applyOperations : List CharOperation → List Char → Option (List Char × List Char)
  | [], old => some ([], old)
  | .insert text :: ops, old => (applyOperations ops old).map fun r => (text ++ r.1, r.2)
  | .delete bytes :: ops, old => (splitBytes bytes old).bind fun s => applyOperations ops s.2
  | .keep bytes :: ops, old =>
    (splitBytes bytes old).bind fun s => (applyOperations ops s.2).map fun r => (s.1 ++ r.1, r.2)

end SpkEditor
