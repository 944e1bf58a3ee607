import SpkEditor.Diff.Staging
import SpkEditor.Lib.Lines

/-!
# The hunks of a diff

`compute_hunks` reads the hunks off a patch of git, which has no context lines. A hunk with added
lines has its rows of the buffer from these, one with deleted lines its range of the base text; for
the other side it counts how far the rows of the two texts have diverged so far.
-/

namespace SpkEditor.Staging

open List Lines

abbrev TextLine := Bytes

/-- The lines of a text; the last one can be without a break. -/
def linesOf (text : Bytes) : List TextLine :=
  (closedBy newline text).1.map (· ++ [newline]) ++
    if (closedBy newline text).2 = [] then [] else [(closedBy newline text).2]

/-- `GitDiffLineType`; the others tell that a text has no break at its end. -/
inductive DiffLineType where
  | addition
  | deletion
  | other

structure DiffLine where
  originValue : DiffLineType
  oldLineno : Option Nat
  newLineno : Option Nat
  contentOffset : Nat
  content : Bytes

/-- The lines of each hunk. -/
abbrev GitPatch := List (List DiffLine)

/-- The offset of `Point::new(row, 0)`; behind the last row, the end of the text. -/
def rowOffset (text : Bytes) (row : Nat) : Nat := ((linesOf text).take row).flatten.length

/-- The local variables of `process_patch_hunk`. Rows are small enough for their integers. -/
structure PatchRows where
  firstDeletionBufferRow : Option Nat
  bufferRowRange : Option Range
  diffBaseByteRange : Option Range
  firstAdditionOldRow : Option Nat
  divergence : Int

def PatchRows.line (s : PatchRows) (line : DiffLine) : Option PatchRows :=
  match line.originValue with
  | .addition => do
    let newLineno ← line.newLineno
    let row := newLineno - 1
    some { s with
      firstAdditionOldRow := s.firstAdditionOldRow.or (some (newLineno - s.divergence - 1).toNat)
      divergence := s.divergence + 1
      bufferRowRange := some ⟨(s.bufferRowRange.map Range.start).getD row, row + 1⟩ }
  | .deletion => do
    let stop := line.contentOffset + line.content.length
    let first ← s.firstDeletionBufferRow.or
      (line.oldLineno.map fun oldLineno => ((oldLineno - 1 : Nat) + s.divergence).toNat)
    some { s with
      diffBaseByteRange :=
        some ⟨(s.diffBaseByteRange.map Range.start).getD line.contentOffset, stop⟩
      firstDeletionBufferRow := some first
      divergence := s.divergence - 1 }
  | .other => some s

/-- The hunk, without its word diffs, and the divergence behind it. `none` is a panic. -/
def processPatchHunk (diffBase buffer : Bytes) (items : List DiffLine) (divergence : Int) :
    Option (Hunk × Int) := do
  if items = [] then none
  let s ← items.foldlM PatchRows.line ⟨none, none, none, none, divergence⟩
  let bufferRowRange ← s.bufferRowRange.or (s.firstDeletionBufferRow.map fun row => ⟨row, row⟩)
  let diffBaseByteRange ← s.diffBaseByteRange.or (s.firstAdditionOldRow.map fun row =>
    ⟨rowOffset diffBase row, rowOffset diffBase row⟩)
  some (⟨⟨rowOffset buffer bufferRowRange.start, rowOffset buffer bufferRowRange.stop⟩,
    diffBaseByteRange⟩, s.divergence)

def processPatch (diffBase buffer : Bytes) : GitPatch → Int → Option (List Hunk)
  | [], _ => some []
  | items :: patch, divergence => do
    let (hunk, divergence) ← processPatchHunk diffBase buffer items divergence
    return hunk :: (← processPatch diffBase buffer patch divergence)

/-- `compute_hunks`, by what git finds between two texts. -/
def computeHunks (fromBuffers : Bytes → Bytes → Option GitPatch) (diffBase : Option Bytes)
    (buffer : Bytes) : Option (List Hunk) :=
  match diffBase with
  | none => some [⟨⟨0, buffer.length⟩, ⟨0, 0⟩⟩]
  | some diffBase =>
    if buffer = [newline] ∧ diffBase.getLast? = some newline ∧ 1 < diffBase.length then
      some [⟨⟨0, 0⟩, ⟨0, diffBase.length - 1⟩⟩]
    else
      match fromBuffers diffBase buffer with
      | some patch => processPatch diffBase buffer patch 0
      | none => some []

/-! ## What git promises -/

/-- The items of a hunk list its deleted and its added lines, each in order, and nothing else but
notes. `row` and `newRow` are the rows the two sides are at, `offset` is that of the base text. -/
inductive Lists : Nat → Nat → Nat → List DiffLine → List TextLine → List TextLine → Prop
  | nil {row newRow offset} : Lists row newRow offset [] [] []
  | deletion {row newRow offset items dels adds} {item : DiffLine}
      (origin : item.originValue = .deletion) (lineno : item.oldLineno = some (row + 1))
      (at_offset : item.contentOffset = offset)
      (rest : Lists (row + 1) newRow (offset + item.content.length) items dels adds) :
      Lists row newRow offset (item :: items) (item.content :: dels) adds
  | addition {row newRow offset items dels adds} {item : DiffLine}
      (origin : item.originValue = .addition) (lineno : item.newLineno = some (newRow + 1))
      (rest : Lists row (newRow + 1) offset items dels adds) :
      Lists row newRow offset (item :: items) dels (item.content :: adds)
  | note {row newRow offset items dels adds} {item : DiffLine} (origin : item.originValue = .other)
      (rest : Lists row newRow offset items dels adds) :
      Lists row newRow offset (item :: items) dels adds

/-- The hunks lead from the one list of lines to the other; what is between them is the same. -/
inductive Aligned : Nat → Nat → Nat → List TextLine → List TextLine → GitPatch → Prop
  | same {row newRow offset} (ls : List TextLine) : Aligned row newRow offset ls ls []
  | hunk {row newRow offset base buffer patch items dels adds} (same : List TextLine)
      (ne : dels ≠ [] ∨ adds ≠ [])
      (lists : Lists (row + same.length) (newRow + same.length) (offset + same.flatten.length) items
        dels adds)
      (rest : Aligned (row + same.length + dels.length) (newRow + same.length + adds.length)
        (offset + same.flatten.length + dels.flatten.length) base buffer patch) :
      Aligned row newRow offset (same ++ (dels ++ base)) (same ++ (adds ++ buffer)) (items :: patch)

def LineDiff (base buffer : Bytes) (patch : GitPatch) : Prop :=
  Aligned 0 0 0 (linesOf base) (linesOf buffer) patch

/-! ## What hunks stand for -/

/-- The base text from `pos` on, with the hunks replaced by what the buffer has there. -/
def rebuilt (base buffer : Bytes) : Nat → List Hunk → Bytes
  | pos, [] => base.drop pos
  | pos, h :: hunks => textIn base ⟨pos, h.base.start⟩ ++ textIn buffer h.buffer ++
      rebuilt base buffer h.base.stop hunks

/-- The hunks come one after the other, in both texts. -/
def InOrder (base buffer : Bytes) : Nat → Nat → List Hunk → Prop
  | b, t, [] => b ≤ base.length ∧ t ≤ buffer.length
  | b, t, h :: hunks => b ≤ h.base.start ∧ h.base.start ≤ h.base.stop ∧
      t ≤ h.buffer.start ∧ h.buffer.start ≤ h.buffer.stop ∧
      InOrder base buffer h.base.stop h.buffer.stop hunks

theorem linesOf_flatten (text : Bytes) : (linesOf text).flatten = text := by
  obtain ⟨hjoin, -, -⟩ := closedBy_spec newline text
  have hclosed : ((closedBy newline text).1.map (· ++ [newline])).flatten =
      joined newline (closedBy newline text).1 := (flatMap_def ..).symm
  unfold linesOf
  rw [flatten_append, hclosed]
  split
  next h => rw [h, append_nil] at hjoin; rw [flatten_nil, append_nil, hjoin]
  · rw [flatten_singleton, hjoin]

theorem textIn_between {text front mid behind : Bytes} (h : text = front ++ mid ++ behind) :
    textIn text ⟨front.length, front.length + mid.length⟩ = mid := by
  rw [textIn, h, ← length_append, take_left, drop_left]

theorem rowOffset_front {text : Bytes} {front behind : List TextLine}
    (h : linesOf text = front ++ behind) : rowOffset text front.length = front.flatten.length := by
  rw [rowOffset, h, take_left]

theorem foldlM_line {row newRow offset : Nat} {items : List DiffLine} {dels adds : List TextLine}
    (h : Lists row newRow offset items dels adds) (s : PatchRows) :
    ∃ s', items.foldlM PatchRows.line s = some s' ∧
      s'.divergence = s.divergence + adds.length - dels.length ∧
      s'.bufferRowRange = (if adds = [] then s.bufferRowRange else
        some ⟨(s.bufferRowRange.map Range.start).getD newRow, newRow + adds.length⟩) ∧
      s'.diffBaseByteRange = (if dels = [] then s.diffBaseByteRange else
        some ⟨(s.diffBaseByteRange.map Range.start).getD offset, offset + dels.flatten.length⟩) ∧
      (adds = [] → s'.firstDeletionBufferRow = if dels = [] then s.firstDeletionBufferRow else
        s.firstDeletionBufferRow.or (some (row + s.divergence).toNat)) ∧
      (dels = [] → s'.firstAdditionOldRow = if adds = [] then s.firstAdditionOldRow else
        s.firstAdditionOldRow.or (some (newRow - s.divergence).toNat)) := by
  induction h generalizing s with
  | nil => exact ⟨s, rfl, by simp, rfl, rfl, fun _ => rfl, fun _ => rfl⟩
  | @deletion row newRow offset items dels adds item origin lineno at_offset rest ih =>
    obtain ⟨first, hfirst⟩ : ∃ first,
        s.firstDeletionBufferRow.or (some (row + s.divergence).toNat) = some first := by
      cases s.firstDeletionBufferRow <;> simp
    have hstep : s.line item = some { s with
        diffBaseByteRange := some ⟨(s.diffBaseByteRange.map Range.start).getD offset,
          offset + item.content.length⟩
        firstDeletionBufferRow := some first
        divergence := s.divergence - 1 } := by
      rw [PatchRows.line, origin]
      simp only [lineno, at_offset, Option.map_some, Nat.add_sub_cancel, hfirst]
      rfl
    obtain ⟨s', hs', hdiv, hrows, hbase, hdel, hadd⟩ := ih _
    rw [foldlM_cons, hstep]
    refine ⟨s', hs', ?_, hrows, ?_, fun hadds => ?_, fun hnil => absurd hnil (cons_ne_nil _ _)⟩
    · rw [hdiv, length_cons]
      push_cast
      omega
    · rw [hbase, if_neg (cons_ne_nil _ _)]
      split
      next h => rw [h, flatten_cons, flatten_nil, append_nil]
      · rw [flatten_cons, length_append, Option.map_some, Option.getD_some, Nat.add_assoc]
    · rw [hdel hadds, if_neg (cons_ne_nil _ _), hfirst]
      split <;> rfl
  | @addition row newRow offset items dels adds item origin lineno rest ih =>
    have hstep : s.line item = some { s with
        firstAdditionOldRow := s.firstAdditionOldRow.or (some (newRow - s.divergence).toNat)
        divergence := s.divergence + 1
        bufferRowRange := some ⟨(s.bufferRowRange.map Range.start).getD newRow, newRow + 1⟩ } := by
      rw [PatchRows.line, origin]
      have hrow : ((newRow + 1 : Nat) : Int) - s.divergence - 1 = newRow - s.divergence := by
        omega
      simp only [lineno, Option.bind_eq_bind, Option.bind_some, hrow, Nat.add_sub_cancel]
    obtain ⟨s', hs', hdiv, hrows, hbase, hdel, hadd⟩ := ih _
    rw [foldlM_cons, hstep]
    refine ⟨s', hs', ?_, ?_, hbase, fun hnil => absurd hnil (cons_ne_nil _ _), fun hdels => ?_⟩
    · rw [hdiv, length_cons]
      push_cast
      omega
    · rw [hrows, if_neg (cons_ne_nil _ _)]
      split
      next h => rw [h]; rfl
      · rw [length_cons, Option.map_some, Option.getD_some, Nat.add_assoc, Nat.add_comm 1]
    · rw [hadd hdels, if_neg (cons_ne_nil _ _)]
      cases s.firstAdditionOldRow <;> split <;> rfl
  | @note row newRow offset items dels adds item origin rest ih =>
    have hstep : s.line item = some s := by rw [PatchRows.line, origin]
    rw [foldlM_cons, hstep]
    exact ih s

/-- The hunk of the rows that are listed, where `front` and `newFront` are the lines before them. -/
theorem processPatchHunk_spec {base buffer : Bytes} {front newFront dels adds behind newBehind :
    List TextLine} {items : List DiffLine} (hbase : linesOf base = front ++ (dels ++ behind))
    (hbuffer : linesOf buffer = newFront ++ (adds ++ newBehind)) (hne : dels ≠ [] ∨ adds ≠ [])
    (h : Lists front.length newFront.length front.flatten.length items dels adds) :
    processPatchHunk base buffer items (newFront.length - front.length) =
      some (⟨⟨newFront.flatten.length, newFront.flatten.length + adds.flatten.length⟩,
          ⟨front.flatten.length, front.flatten.length + dels.flatten.length⟩⟩,
        ((newFront ++ adds).length : Int) - (front ++ dels).length) := by
  have hitems : items ≠ [] := by
    rintro rfl
    cases h
    simp at hne
  obtain ⟨s, hs, hdiv, hrows, hrange, hdel, hadd⟩ := foldlM_line h
    ⟨none, none, none, none, newFront.length - front.length⟩
  have hfront : rowOffset base front.length = front.flatten.length := rowOffset_front hbase
  have hstart : rowOffset buffer newFront.length = newFront.flatten.length :=
    rowOffset_front hbuffer
  have hstop : rowOffset buffer (newFront.length + adds.length) =
      newFront.flatten.length + adds.flatten.length := by
    rw [← length_append, rowOffset_front (hbuffer.trans (append_assoc ..).symm), flatten_append,
      length_append]
  -- the rows of the buffer, also where only lines are deleted
  have hbuf : s.bufferRowRange.or (s.firstDeletionBufferRow.map fun row => ⟨row, row⟩) =
      some ⟨newFront.length, newFront.length + adds.length⟩ := by
    by_cases hadds : adds = []
    · have hdels : dels ≠ [] := hne.resolve_right (not_not.mpr hadds)
      have hrow : ((front.length : Int) + (newFront.length - front.length)).toNat =
          newFront.length := by omega
      rw [hrows, if_pos hadds, hdel hadds, if_neg hdels, hrow, hadds]
      rfl
    · rw [hrows, if_neg hadds]
      rfl
  have hbytes : s.diffBaseByteRange.or (s.firstAdditionOldRow.map fun row =>
      ⟨rowOffset base row, rowOffset base row⟩) =
        some ⟨front.flatten.length, front.flatten.length + dels.flatten.length⟩ := by
    by_cases hdels : dels = []
    · have hadds : adds ≠ [] := hne.resolve_left (not_not.mpr hdels)
      have hrow : ((newFront.length : Int) - (newFront.length - front.length)).toNat =
          front.length := by omega
      rw [hrange, if_pos hdels, hadd hdels, if_neg hadds, hrow, hdels]
      simp only [Option.map_some, Option.or, hfront]
      rfl
    · rw [hrange, if_neg hdels]
      rfl
  unfold processPatchHunk
  rw [if_neg hitems]
  simp only [Option.bind_eq_bind, Option.bind_some, hs, hbuf, hbytes, hstart, hstop]
  rw [hdiv]
  congr 2
  simp only [length_append]
  omega

/-- Behind lines that are gone through, the hunks of the rest rebuild the rest. -/
theorem processPatch_spec {base buffer : Bytes} {row newRow offset : Nat} {ls newLs : List TextLine}
    {patch : GitPatch} (h : Aligned row newRow offset ls newLs patch) {front newFront : List TextLine}
    (hrow : front.length = row) (hnew : newFront.length = newRow) (hoff : front.flatten.length = offset)
    (hbase : linesOf base = front ++ ls) (hbuffer : linesOf buffer = newFront ++ newLs) :
    ∃ hunks, processPatch base buffer patch (newRow - row) = some hunks ∧
      InOrder base buffer offset newFront.flatten.length hunks ∧
      rebuilt base buffer offset hunks = newLs.flatten := by
  have hflat {text : Bytes} {a b : List TextLine} (h : linesOf text = a ++ b) :
      text = a.flatten ++ b.flatten := by
    rw [← linesOf_flatten text, h, flatten_append]
  induction h generalizing front newFront with
  | same ls =>
    subst hrow hnew hoff
    refine ⟨[], rfl, ⟨?_, ?_⟩, ?_⟩
    · rw [hflat hbase, length_append]
      exact Nat.le_add_right ..
    · rw [hflat hbuffer, length_append]
      exact Nat.le_add_right ..
    · rw [rebuilt, hflat hbase, drop_left]
  | @hunk row newRow offset ls newLs patch items dels adds same ne lists rest ih =>
    subst hrow hnew hoff
    rw [← append_assoc] at hbase hbuffer
    rw [← length_append, ← length_append, ← length_append, ← flatten_append] at lists
    have hone := processPatchHunk_spec hbase hbuffer ne lists
    have hdiv : (((newFront ++ same).length : Int) - (front ++ same).length) =
        newFront.length - front.length := by
      simp only [length_append]
      omega
    rw [hdiv] at hone
    obtain ⟨hunks, hhunks, horder, hrebuilt⟩ := @ih (front ++ same ++ dels)
      (newFront ++ same ++ adds) (by simp only [length_append]) (by simp only [length_append])
      (by simp only [flatten_append, length_append]) (by rw [hbase, append_assoc _ dels])
      (by rw [hbuffer, append_assoc _ adds])
    simp only [flatten_append, length_append] at hone horder
    refine ⟨⟨⟨newFront.flatten.length + same.flatten.length,
        newFront.flatten.length + same.flatten.length + adds.flatten.length⟩,
      ⟨front.flatten.length + same.flatten.length,
        front.flatten.length + same.flatten.length + dels.flatten.length⟩⟩ :: hunks, ?_, ?_, ?_⟩
    · rw [processPatch]
      simp only [hone, Option.bind_eq_bind, Option.bind_some, hhunks]
      rfl
    · exact ⟨Nat.le_add_right .., Nat.le_add_right .., Nat.le_add_right .., Nat.le_add_right ..,
        horder⟩
    · -- the lines that are the same, those that are added, and the rest
      have hsame : textIn base ⟨front.flatten.length, front.flatten.length + same.flatten.length⟩ =
          same.flatten :=
        textIn_between (by rw [hflat hbase, flatten_append])
      have hadds := textIn_between (by rw [hflat hbuffer, @flatten_append _ adds, append_assoc] :
        buffer = (newFront ++ same).flatten ++ adds.flatten ++ newLs.flatten)
      rw [flatten_append, length_append] at hadds
      rw [rebuilt, hsame, hadds, hrebuilt, flatten_append, flatten_append, append_assoc]

/-- **The hunks are exact**, if what git finds is a line diff. -/
theorem compute_hunks_exact {fromBuffers : Bytes → Bytes → Option GitPatch} {base buffer : Bytes}
    {patch : GitPatch} (hgit : fromBuffers base buffer = some patch)
    (hdiff : LineDiff base buffer patch) :
    ∃ hunks, computeHunks fromBuffers (some base) buffer = some hunks ∧
      InOrder base buffer 0 0 hunks ∧ rebuilt base buffer 0 hunks = buffer := by
  unfold computeHunks
  dsimp only
  split
  next h =>
    obtain ⟨rfl, hlast, hlen⟩ := h
    obtain ⟨front, rfl⟩ := getLast?_eq_some_iff.mp hlast
    have hstop : (front ++ [newline]).length - 1 = front.length := by simp
    refine ⟨_, rfl, ⟨le_refl _, Nat.zero_le _, le_refl _, le_refl _, Nat.sub_le .., Nat.zero_le _⟩, ?_⟩
    rw [rebuilt, rebuilt, hstop, drop_left]
    rfl
  · rw [hgit]
    obtain ⟨hunks, hhunks, horder, hrebuilt⟩ := @processPatch_spec base buffer 0 0 0 _ _ patch hdiff
      [] [] rfl rfl rfl rfl rfl
    exact ⟨hunks, hhunks, horder, hrebuilt.trans (linesOf_flatten buffer)⟩

/-- `y`, without a break, becomes `z`, with one. -/
def samplePatch : GitPatch :=
  [[⟨.deletion, some 2, none, 2, [121]⟩, ⟨.other, none, none, 0, []⟩,
    ⟨.addition, none, some 2, 2, [122, 10]⟩]]

theorem compute_hunks_exact_last :
    ∃ hunks, computeHunks (fun _ _ => some samplePatch) (some [120, 10, 121]) [120, 10, 122, 10] =
        some hunks ∧ InOrder [120, 10, 121] [120, 10, 122, 10] 0 0 hunks ∧
      rebuilt [120, 10, 121] [120, 10, 122, 10] 0 hunks = [120, 10, 122, 10] :=
  compute_hunks_exact rfl
    (show Aligned 0 0 0 ([[120, 10]] ++ ([[121]] ++ [])) ([[120, 10]] ++ ([[122, 10]] ++ [])) _ from
      .hunk _ (.inl (cons_ne_nil _ _)) (by
        refine .deletion rfl rfl ?_ (.note rfl (.addition rfl rfl .nil))
        rfl) (.same []))

end SpkEditor.Staging
