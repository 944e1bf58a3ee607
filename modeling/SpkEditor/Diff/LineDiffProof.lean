import SpkEditor.Diff.LineAlign

/-!
# Line operations against character operations

The line diff marks rows by where the two texts stand, and mostly does not ask whether
the rows they stand in are marked already. `FlushInsertOk` and `FlushDeleteOk` say which
branches need that, and `TrimOk` that the suffix taken off both buffers really is one: it
is looked for chunk by chunk, and the chunks are not gone through from the last one. In
every run that keeps to these, the rows left over on both sides are the same
(`Tracks.push`), and then the line operations rebuild the new text
(`lineOperations_rebuild`).
-/

namespace SpkEditor

open Rows List Option

namespace LineDiff

/-! ## When a flush is good -/

/-- The row the old text stands in is marked. -/
def rowDeleted (d : LineDiff) : Prop := d.oldEnd.row ∈ d.deletedRows

instance (d : LineDiff) : Decidable d.rowDeleted := inferInstanceAs (Decidable (_ ∈ _))

/-- The row the new text stands in is marked. -/
def rowInserted (d : LineDiff) : Prop := d.newEnd.row ∈ d.insertedRows

instance (d : LineDiff) : Decidable d.rowInserted := inferInstanceAs (Decidable (_ ∈ _))

/-- What `flush_insert` needs of the rows it finds. Whole lines in front of a line leave the
new row they start in unmarked, so it must be empty and unmarked; a newline at the end of a
line needs nothing; every other insertion marks both rows, so the old one must not be
marked alone. -/
def FlushInsertOk (d : LineDiff) (old : Rope) : Prop :=
  d.bufferedInsert = [] ∨
    if isLineStart d.oldEnd then
      if (d.newEnd.add (linesOf d.bufferedInsert)).column = 0 then ¬ d.rowInserted ∧ d.newEnd.column = 0
      else d.rowDeleted → d.rowInserted
    else if isLineEnd d.oldEnd old ∧ d.bufferedInsert.head? = some '\n' then True
    else d.rowDeleted → d.rowInserted

/-- What `flush_delete` needs of the rows it finds. From the end of a line to the end of a
line it needs nothing; whole lines in front of a line leave the old row they end at
unmarked, so neither row may be marked; every other deletion marks both rows, so either
both are marked or none. -/
def FlushDeleteOk (d : LineDiff) (old : Rope) : Prop :=
  d.bufferedDelete = 0 ∨
    if isLineEnd d.oldEnd old ∧ isLineEnd (d.deletedEnd old) old then True
    else if isLineStart d.oldEnd ∧ (isLineStart (d.deletedEnd old) ∧ (d.deletedEnd old).lt old.maxPoint) ∧
        d.newEnd.column = 0 then
      ¬ d.rowDeleted ∧ ¬ d.rowInserted
    else (d.rowDeleted ↔ d.rowInserted)

/-- What `trim_buffered_end` finds is at the end of the deleted text. -/
def TrimOk (d : LineDiff) (old : Rope) : Prop :=
  let oldStartOffset := pointToOffset old.text d.oldEnd
  d.commonSuffix old <+: (sliceBytes old.text oldStartOffset (oldStartOffset + d.bufferedDelete)).reverse

instance (d : LineDiff) (old : Rope) : Decidable (d.FlushInsertOk old) := by
  unfold FlushInsertOk
  infer_instance

instance (d : LineDiff) (old : Rope) : Decidable (d.FlushDeleteOk old) := by
  unfold FlushDeleteOk
  infer_instance

instance (d : LineDiff) (old : Rope) : Decidable (d.TrimOk old) := by
  unfold TrimOk
  infer_instance

/-- Every flush that an operation brings about is good. -/
def PushOk (d : LineDiff) (old : Rope) : CharOperation → Prop
  | .insert text =>
    d.FlushDeleteOk old ∧
      let d := d.flushDelete old
      if isLineStart d.oldEnd then
        '\n' ∈ text →
          { d with bufferedInsert := d.bufferedInsert ++ (splitAfterLastNewline text).1 }.FlushInsertOk old
      else
        text.getLast? ≠ some '\n' → { d with bufferedInsert := d.bufferedInsert ++ text }.FlushInsertOk old
  | .delete bytes =>
    let d := { d with bufferedDelete := d.bufferedDelete + bytes }
    d.TrimOk old ∧ ∀ r ∈ d.trimBufferedEnd old, r.1.FlushInsertOk old ∧
      (0 < r.2 ∨ ¬ isLineEnd (r.1.flushInsert old).oldEnd old → (r.1.flushInsert old).FlushDeleteOk old)
  | .keep _ => d.FlushDeleteOk old ∧ (d.flushDelete old).FlushInsertOk old

def FinishOk (d : LineDiff) (old : Rope) : Prop :=
  d.FlushInsertOk old ∧ (d.flushInsert old).FlushDeleteOk old

def RunOk (old : Rope) : LineDiff → List CharOperation → Prop
  | d, [] => d.FinishOk old
  | d, op :: ops => d.PushOk old op ∧ ∀ d' ∈ d.pushCharOperation old op, RunOk old d' ops

instance (d : LineDiff) (old : Rope) (op : CharOperation) : Decidable (d.PushOk old op) := by
  cases op <;> unfold PushOk <;> infer_instance

instance (d : LineDiff) (old : Rope) : Decidable (d.FinishOk old) := inferInstanceAs (Decidable (_ ∧ _))

instance decidableRunOk (old : Rope) : ∀ (d : LineDiff) (ops : List CharOperation), Decidable (d.RunOk old ops)
  | d, [] => inferInstanceAs (Decidable (d.FinishOk old))
  | d, op :: ops =>
    have : DecidablePred fun d' : LineDiff => d'.RunOk old ops := fun d' => decidableRunOk old d' ops
    inferInstanceAs (Decidable (d.PushOk old op ∧ ∀ d' ∈ d.pushCharOperation old op, d'.RunOk old ops))

/-! ## Standing in both texts -/

/-- The diff stands after `pre` in the old text, with `post` to come, and after `new` in the
new one. -/
structure At (d : LineDiff) (pre post new : List Char) : Prop where
  oldEnd : d.oldEnd = linesOf pre
  newEnd : d.newEnd = linesOf new
  aligned : Aligned d.insertedNewlineAtEnd d.deletedRows d.insertedRows pre post new

variable {d : LineDiff} {old : Rope} {pre post new : List Char}

theorem At.rowDeleted_iff (h : d.At pre post new) : d.rowDeleted ↔ lastIx '\n' pre ∈ d.deletedRows := by
  rw [rowDeleted, h.oldEnd, linesOf_row]

theorem At.rowInserted_iff (h : d.At pre post new) : d.rowInserted ↔ lastIx '\n' new ∈ d.insertedRows := by
  rw [rowInserted, h.newEnd, linesOf_row]

theorem isLineStart_linesOf : isLineStart (linesOf pre) ↔ lastRow '\n' pre = [] :=
  linesOf_column_eq_zero

theorem takeWhile_eq_nil : post.takeWhile (· ≠ '\n') = [] ↔ AtLineEnd post := by
  unfold AtLineEnd
  cases post with
  | nil => simp
  | cons c post => by_cases hc : c = '\n' <;> simp [hc]

theorem isLineEnd_linesOf (hold : old.text = pre ++ post) :
    isLineEnd (linesOf pre) old ↔ AtLineEnd post := by
  rw [isLineEnd, hold, linesOf_row, linesOf_column, lineLen_lastIx, ← takeWhile_eq_nil, ← byteLen_eq_zero]
  omega

theorem deletedEnd_eq {w : List Char} (hend : d.oldEnd = linesOf pre) (hold : old.text = pre ++ (w ++ post))
    (hw : d.bufferedDelete = byteLen w) : d.deletedEnd old = linesOf (pre ++ w) := by
  rw [deletedEnd, hend, hold, pointToOffset_linesOf, hw, ← byteLen_append, ← append_assoc,
    offsetToPoint_byteLen]

section

variable (d : LineDiff) (old : Rope)

@[simp] theorem flushInsert_bufferedInsert :
    (d.flushInsert old).bufferedInsert = [] := by
  unfold flushInsert
  split
  · assumption
  · rfl

@[simp] theorem flushInsert_bufferedDelete :
    (d.flushInsert old).bufferedDelete = d.bufferedDelete := by
  unfold flushInsert markInsert
  split <;> try rfl
  dsimp only
  repeat' split
  all_goals rfl

@[simp] theorem flushDelete_bufferedDelete :
    (d.flushDelete old).bufferedDelete = 0 := by
  unfold flushDelete
  split
  · assumption
  · rfl

@[simp] theorem flushDelete_bufferedInsert :
    (d.flushDelete old).bufferedInsert = d.bufferedInsert := by
  unfold flushDelete markDelete
  split <;> try rfl
  dsimp only
  repeat' split
  all_goals rfl

end

/-- An insertion that marks everything: the old row it goes into is not marked alone, and the
new row is marked alone only where a newline was inserted before. -/
theorem At.both_of_imp (h : d.At pre post new) (hok : d.rowDeleted → d.rowInserted)
    (hnl : d.insertedNewlineAtEnd = false) :
    lastIx '\n' pre ∈ d.deletedRows ↔ lastIx '\n' new ∈ d.insertedRows := by
  rw [h.rowDeleted_iff, h.rowInserted_iff] at hok
  refine ⟨hok, fun hI => ?_⟩
  by_contra hD
  have := h.aligned.alone hI hD
  rw [hnl] at this
  exact Bool.false_ne_true this

theorem At.flushInsert (h : d.At pre post new) (hold : old.text = pre ++ post)
    (hok : d.FlushInsertOk old) : (d.flushInsert old).At pre post (new ++ d.bufferedInsert) := by
  unfold LineDiff.flushInsert
  by_cases hempty : d.bufferedInsert = []
  · rw [if_pos hempty, hempty, append_nil]
    exact h
  rw [if_neg hempty]
  have hok := hok.resolve_left hempty
  have hgrown : d.newEnd.add (linesOf d.bufferedInsert) = linesOf (new ++ d.bufferedInsert) := by
    rw [h.newEnd, linesOf_append]
  have hrow : (linesOf pre).row = lastIx '\n' pre := linesOf_row pre
  have hnewrow : (linesOf new).row = lastIx '\n' new := linesOf_row new
  have hgrownrow : (linesOf (new ++ d.bufferedInsert)).row = lastIx '\n' (new ++ d.bufferedInsert) :=
    linesOf_row _
  unfold markInsert
  rw [hgrown] at hok
  simp only [hgrown]
  by_cases hstart : isLineStart d.oldEnd
  · rw [if_pos hstart] at hok
    rw [if_pos hstart]
    have hpre : lastRow '\n' pre = [] := isLineStart_linesOf.1 (h.oldEnd ▸ hstart)
    have hnl : d.insertedNewlineAtEnd = false :=
      Bool.eq_false_iff.2 fun hn => (h.aligned.closed hn).2 hpre
    by_cases hcol : (linesOf (new ++ d.bufferedInsert)).column = 0
    · rw [if_pos hcol] at hok
      rw [if_pos hcol]
      refine ⟨h.oldEnd, rfl, ?_⟩
      rw [h.newEnd, hnewrow, hgrownrow]
      refine h.aligned.insert_until hpre ?_ (linesOf_column_eq_zero.1 hcol) (mt h.rowInserted_iff.2 hok.1)
      exact linesOf_column_eq_zero.1 (h.newEnd ▸ hok.2)
    · rw [if_neg hcol] at hok
      rw [if_neg hcol]
      refine ⟨h.oldEnd, rfl, ?_⟩
      rw [h.oldEnd, h.newEnd, hrow, hnewrow, hgrownrow]
      exact h.aligned.insert_all _ (h.both_of_imp hok hnl)
  rw [if_neg hstart] at hok
  rw [if_neg hstart]
  have hpre : lastRow '\n' pre ≠ [] := fun hpre => hstart (h.oldEnd ▸ isLineStart_linesOf.2 hpre)
  by_cases hend : isLineEnd d.oldEnd old
  · have hpost : AtLineEnd post := (isLineEnd_linesOf hold).1 (h.oldEnd ▸ hend)
    rw [if_pos hend]
    by_cases hnewline : d.bufferedInsert.head? = some '\n'
    · rw [if_pos hnewline]
      refine ⟨h.oldEnd, rfl, ?_⟩
      rw [h.newEnd, hnewrow, hgrownrow]
      obtain ⟨t, ht⟩ : ∃ t, d.bufferedInsert = '\n' :: t := List.head?_eq_some_iff.1 hnewline
      rw [ht]
      exact h.aligned.insert_after t hpost hpre
    · rw [if_neg (fun hand => hnewline hand.2)] at hok
      rw [if_neg hnewline]
      refine ⟨h.oldEnd, rfl, ?_⟩
      rw [h.oldEnd, h.newEnd, hrow, hnewrow, hgrownrow]
      cases hnl : d.insertedNewlineAtEnd with
      | true =>
        exact (hnl ▸ h.aligned).insert_more _ hpost
      | false =>
        exact (hnl ▸ h.aligned).insert_all _ (h.both_of_imp hok hnl)
  · rw [if_neg (fun hand => hend hand.1)] at hok
    rw [if_neg hend]
    refine ⟨h.oldEnd, rfl, ?_⟩
    rw [h.oldEnd, h.newEnd, hrow, hnewrow, hgrownrow]
    refine h.aligned.insert_all _ (h.aligned.both.resolve_left fun hpost => hend ?_)
    rw [h.oldEnd]
    exact (isLineEnd_linesOf hold).2 hpost

section

variable {w : List Char} (h : d.At pre (w ++ post) new) (hold : old.text = pre ++ (w ++ post))
include h hold

theorem At.flushDelete (hw : d.bufferedDelete = byteLen w) (hok : d.FlushDeleteOk old) :
    (d.flushDelete old).At (pre ++ w) post new := by
  unfold LineDiff.flushDelete
  by_cases hempty : d.bufferedDelete = 0
  · have hnil : w = [] := byteLen_eq_zero.1 (hw ▸ hempty)
    rw [if_pos hempty, hnil, append_nil]
    rwa [hnil] at h
  rw [if_neg hempty]
  have hok := hok.resolve_left hempty
  have hgrown := deletedEnd_eq h.oldEnd hold hw
  have hold' : old.text = (pre ++ w) ++ post := by rw [hold, append_assoc]
  have hrow : (linesOf pre).row = lastIx '\n' pre := linesOf_row pre
  have hnewrow : (linesOf new).row = lastIx '\n' new := linesOf_row new
  have hgrownrow : (linesOf (pre ++ w)).row = lastIx '\n' (pre ++ w) := linesOf_row _
  unfold markDelete
  dsimp only
  rw [hgrown] at hok ⊢
  by_cases hends : isLineEnd d.oldEnd old ∧ isLineEnd (linesOf (pre ++ w)) old
  · rw [if_pos hends]
    refine ⟨rfl, h.newEnd, ?_⟩
    rw [h.oldEnd, hrow, hgrownrow]
    -- The deletion starts at the end of a line, so that it starts with the newline.
    have hpost : AtLineEnd (w ++ post) := (isLineEnd_linesOf hold).1 (h.oldEnd ▸ hends.1)
    have haligned := h.aligned
    cases w with
    | nil => exact absurd (hw.trans byteLen_nil) hempty
    | cons c w =>
      have hc : c = '\n' := hpost c (by simp)
      subst hc
      exact haligned.delete_after ((isLineEnd_linesOf hold').1 hends.2)
  · rw [if_neg hends] at hok ⊢
    by_cases hstarts : isLineStart d.oldEnd ∧
        (isLineStart (linesOf (pre ++ w)) ∧ (linesOf (pre ++ w)).lt old.maxPoint) ∧ d.newEnd.column = 0
    · rw [if_pos hstarts] at hok ⊢
      refine ⟨rfl, h.newEnd, ?_⟩
      rw [h.oldEnd, hrow, hgrownrow]
      exact h.aligned.delete_until (isLineStart_linesOf.1 (h.oldEnd ▸ hstarts.1))
        (isLineStart_linesOf.1 hstarts.2.1.1) (mt h.rowDeleted_iff.2 hok.1) (mt h.rowInserted_iff.2 hok.2)
    · rw [if_neg hstarts] at hok ⊢
      refine ⟨rfl, h.newEnd, ?_⟩
      rw [h.oldEnd, h.newEnd, hrow, hnewrow, hgrownrow]
      rw [h.rowDeleted_iff, h.rowInserted_iff] at hok
      exact h.aligned.delete_all hok

/-- Kept text keeps the rows aligned, and the subtraction in `keep` does not go below zero. -/
theorem At.keep : ∃ d', d.keep (byteLen w) old = some d' ∧ d'.At (pre ++ w) post (new ++ w) ∧
      d'.bufferedInsert = d.bufferedInsert ∧ d'.bufferedDelete = d.bufferedDelete := by
  by_cases hw : w = []
  · subst hw
    refine ⟨d, by simp [LineDiff.keep], ?_, rfl, rfl⟩
    simpa using h
  · have hpos := byteLen_pos hw
    have hlines : (offsetToPoint old.text (pointToOffset old.text d.oldEnd + byteLen w)).sub d.oldEnd =
        some (linesOf w) := by
      rw [h.oldEnd, hold, pointToOffset_linesOf, ← byteLen_append, ← append_assoc,
        offsetToPoint_byteLen, linesOf_append, Point.add_sub]
    have hkeep : d.keep (byteLen w) old = some { d with
        oldEnd := d.oldEnd.add (linesOf w)
        newEnd := d.newEnd.add (linesOf w)
        insertedNewlineAtEnd := false } := by
      rw [LineDiff.keep, if_neg (by omega), hlines]
      rfl
    refine ⟨_, hkeep, ⟨?_, ?_, h.aligned.keep hw⟩, rfl, rfl⟩
    · rw [linesOf_append, ← h.oldEnd]
    · rw [linesOf_append, ← h.newEnd]

end

theorem splitBytes_byteLen (s t : List Char) : splitBytes (byteLen s) (s ++ t) = some (s, t) := by
  induction s with
  | nil =>
    rw [byteLen_nil, splitBytes]
    rfl
  | cons c s ih =>
    have hpos := c.utf8Size_pos
    obtain ⟨n, hn⟩ : ∃ n, byteLen (c :: s) = n + 1 := ⟨byteLen (c :: s) - 1, by rw [byteLen_cons]; omega⟩
    have hrest : n + 1 - c.utf8Size = byteLen s := by
      rw [← hn, byteLen_cons]
      omega
    rw [hn, cons_append, splitBytes, if_pos (by rw [← hn, byteLen_cons]; omega), hrest, ih]
    rfl

theorem splitBytes_some {n : Nat} {text s t : List Char} (h : splitBytes n text = some (s, t)) :
    text = s ++ t ∧ n = byteLen s := by
  induction text generalizing n s with
  | nil =>
    cases n with
    | zero =>
      cases h
      exact ⟨rfl, rfl⟩
    | succ n => simp [splitBytes] at h
  | cons c text ih =>
    cases n with
    | zero =>
      cases h
      exact ⟨rfl, rfl⟩
    | succ n =>
      rw [splitBytes] at h
      split at h
      · obtain ⟨r, hr, heq⟩ := Option.map_eq_some_iff.1 h
        cases heq
        obtain ⟨htext, hlen⟩ := ih hr
        refine ⟨by rw [htext, cons_append], ?_⟩
        rw [byteLen_cons, ← hlen]
        omega
      · simp at h

theorem commonStart_left : ∀ as bs : List Char, commonStart as bs <+: as
  | [], bs => by simp [commonStart]
  | a :: as, [] => by simp [commonStart]
  | a :: as, b :: bs => by
      rw [commonStart]
      split
      · exact List.cons_prefix_cons.2 ⟨rfl, commonStart_left as bs⟩
      · exact nil_prefix

theorem sliceBytes_append (a b c : List Char) :
    sliceBytes (a ++ (b ++ c)) (byteLen a) (byteLen a + byteLen b) = b := by
  rw [sliceBytes, ← byteLen_append, ← append_assoc, splitFloor_byteLen, splitFloor_byteLen]

theorem suffix_of_reverse {m s : List Char} (h : m <+: s.reverse) : ∃ t, s = t ++ m.reverse := by
  obtain ⟨r, hr⟩ := h
  refine ⟨r.reverse, ?_⟩
  rw [← reverse_append, hr, reverse_reverse]

theorem trimBufferedEnd_spec {w : List Char} (hend : d.oldEnd = linesOf pre)
    (hold : old.text = pre ++ (w ++ post)) (hw : d.bufferedDelete = byteLen w) (hok : d.TrimOk old) :
    ∃ a b m, d.bufferedInsert = a ++ m ∧ w = b ++ m ∧ d.trimBufferedEnd old =
        some ({ d with bufferedDelete := byteLen b, bufferedInsert := a }, byteLen m) := by
  have hoff : pointToOffset old.text d.oldEnd = byteLen pre := by rw [hend, hold, pointToOffset_linesOf]
  unfold TrimOk at hok
  dsimp only at hok
  rw [hoff, hw, hold, sliceBytes_append] at hok
  obtain ⟨b, hb⟩ := suffix_of_reverse hok
  obtain ⟨a, ha⟩ : ∃ a, d.bufferedInsert = a ++ (d.commonSuffix old).reverse := by
    refine suffix_of_reverse ?_
    exact commonStart_left _ _
  refine ⟨a, b, _, ha, hb, ?_⟩
  have hrev : byteLen (d.commonSuffix old).reverse = byteLen (d.commonSuffix old) := by
    simp [byteLen, sum_reverse]
  have hdel : checkedSub d.bufferedDelete (byteLen (d.commonSuffix old)) = some (byteLen b) := by
    rw [hw, hb, byteLen_append, hrev, checkedSub, if_pos (by omega), Nat.add_sub_cancel]
  have hins : checkedSub (byteLen d.bufferedInsert) (byteLen (d.commonSuffix old)) = some (byteLen a) := by
    rw [ha, byteLen_append, hrev, checkedSub, if_pos (by omega), Nat.add_sub_cancel]
  have hcut : splitBytes (byteLen a) d.bufferedInsert = some (a, (d.commonSuffix old).reverse) := by
    rw [ha, splitBytes_byteLen]
  unfold trimBufferedEnd
  simp only [hdel, hins, hcut, hrev, bind_eq_bind, bind_some, Option.pure_def]

/-- The diff has taken in the old text up to `post`, and `made` of the new one. A deletion may be
held back, or an insertion, but not both. -/
structure Tracks (d : LineDiff) (old : Rope) (pre w post new made : List Char) : Prop where
  text : old.text = pre ++ (w ++ post)
  standing : d.At pre (w ++ post) new
  deletion : d.bufferedDelete = byteLen w
  insertion : made = new ++ d.bufferedInsert
  one : w = [] ∨ d.bufferedInsert = []

theorem Tracks.start (old : Rope) : LineDiff.start.Tracks old [] [] old.text [] [] :=
  ⟨rfl, ⟨rfl, rfl, Aligned.start _⟩, rfl, rfl, .inl rfl⟩

variable {w made : List Char}

theorem splitAfterLastNewline_append (text : List Char) :
    (splitAfterLastNewline text).1 ++ (splitAfterLastNewline text).2 = text := by
  unfold splitAfterLastNewline List.rdropWhile List.rtakeWhile
  rw [← reverse_append, takeWhile_append_dropWhile, reverse_reverse]

/-- What is buffered as an insertion does not change where the diff stands. -/
theorem At.buffer (h : d.At pre post new) (text : List Char) :
    { d with bufferedInsert := text }.At pre post new :=
  ⟨h.oldEnd, h.newEnd, h.aligned⟩

theorem Tracks.flushDelete (h : d.Tracks old pre w post new made) (hok : d.FlushDeleteOk old) :
    old.text = (pre ++ w) ++ post ∧ (d.flushDelete old).At (pre ++ w) post new :=
  ⟨by rw [h.text, append_assoc], h.standing.flushDelete h.text h.deletion hok⟩

theorem Tracks.push_insert {text : List Char} (h : d.Tracks old pre w post new made)
    (hok : d.PushOk old (.insert text)) :
    ∃ d' pre' w' new', d.pushCharOperation old (.insert text) = some d' ∧
      d'.Tracks old pre' w' post new' (made ++ text) := by
  obtain ⟨hdelete, hinsert⟩ := hok
  obtain ⟨htext, hat⟩ := h.flushDelete hdelete
  unfold pushCharOperation
  dsimp only at hinsert ⊢
  by_cases hstart : isLineStart (d.flushDelete old).oldEnd
  · rw [if_pos hstart] at hinsert ⊢
    by_cases hnl : '\n' ∈ text
    · rw [if_pos hnl]
      have hflushed := (hat.buffer _).flushInsert htext (hinsert hnl)
      refine ⟨_, pre ++ w, [], _, rfl, htext, hflushed.buffer _, ?_, ?_, .inl rfl⟩
      · simp
      · simp [h.insertion, splitAfterLastNewline_append]
    · rw [if_neg hnl]
      refine ⟨_, pre ++ w, [], new, rfl, htext, hat.buffer _, ?_, ?_, .inl rfl⟩
      · simp
      · simp [h.insertion]
  · rw [if_neg hstart] at hinsert ⊢
    by_cases hlast : text.getLast? = some '\n'
    · rw [if_pos hlast]
      refine ⟨_, pre ++ w, [], new, rfl, htext, hat.buffer _, ?_, ?_, .inl rfl⟩
      · simp
      · simp [h.insertion]
    · rw [if_neg hlast]
      have hflushed := (hat.buffer _).flushInsert htext (hinsert hlast)
      refine ⟨_, pre ++ w, [], _, rfl, htext, hflushed, ?_, ?_, .inl rfl⟩
      · simp
      · simp [h.insertion]

section

variable {x : List Char} (h : d.Tracks old pre w (x ++ post) new made)
include h

theorem Tracks.push_keep (hok : d.PushOk old (.keep (byteLen x))) :
    ∃ d' pre' w' new', d.pushCharOperation old (.keep (byteLen x)) = some d' ∧
      d'.Tracks old pre' w' post new' (made ++ x) := by
  obtain ⟨hdelete, hinsert⟩ := hok
  obtain ⟨htext, hat⟩ := h.flushDelete hdelete
  have hflushed := hat.flushInsert htext hinsert
  rw [flushDelete_bufferedInsert, ← h.insertion] at hflushed
  obtain ⟨d', hkeep, hat', hbi, hbd⟩ := hflushed.keep htext
  refine ⟨d', pre ++ w ++ x, [], made ++ x, hkeep, ?_, hat', ?_, ?_, .inl rfl⟩
  · rw [htext]
    simp
  · rw [hbd]
    simp
  · rw [hbi]
    simp

theorem Tracks.push_delete (hok : d.PushOk old (.delete (byteLen x))) :
    ∃ d' pre' w' new', d.pushCharOperation old (.delete (byteLen x)) = some d' ∧
      d'.Tracks old pre' w' post new' made := by
  have htext : old.text = pre ++ ((w ++ x) ++ post) := by rw [h.text, append_assoc w]
  obtain ⟨htrim, hflush⟩ := hok
  obtain ⟨a, b, m, hbi, hw, heq⟩ := @trimBufferedEnd_spec
    { d with bufferedDelete := d.bufferedDelete + byteLen x } old pre post (w ++ x) h.standing.oldEnd htext
    (by dsimp only; rw [h.deletion, byteLen_append]) htrim
  obtain ⟨hinsert, hdelete⟩ := hflush _ heq
  -- The text taken off both buffers is kept: it comes last in what is deleted and inserted.
  have hat : { d with bufferedDelete := byteLen b, bufferedInsert := a }.At pre (b ++ (m ++ post)) new := by
    have := h.standing
    rw [← append_assoc w, hw, append_assoc] at this
    exact ⟨this.oldEnd, this.newEnd, this.aligned⟩
  rw [hw, append_assoc] at htext
  have hflushed := hat.flushInsert htext hinsert
  have hmade : made = new ++ a ++ m := by rw [h.insertion, show d.bufferedInsert = a ++ m from hbi, append_assoc]
  unfold pushCharOperation
  dsimp only
  rw [heq]
  dsimp only [bind_eq_bind, bind_some]
  by_cases hcond : 0 < byteLen m ∨ ¬ isLineEnd
      ({ d with bufferedDelete := byteLen b, bufferedInsert := a }.flushInsert old).oldEnd old
  · rw [if_pos hcond]
    have hdeleted := hflushed.flushDelete htext (by simp) (hdelete hcond)
    have htext' : old.text = (pre ++ b) ++ (m ++ post) := by rw [htext, append_assoc]
    obtain ⟨d', hkeep, hat', hbi', hbd'⟩ := hdeleted.keep htext'
    refine ⟨d', pre ++ b ++ m, [], new ++ a ++ m, hkeep, ?_, hat', ?_, ?_, .inl rfl⟩
    · rw [htext]
      simp
    · rw [hbd']
      simp
    · rw [hbi', hmade]
      simp
  · rw [if_neg hcond]
    have hm : m = [] := byteLen_eq_zero.1 (by omega)
    subst hm
    refine ⟨_, pre, b, new ++ a, rfl, by simpa using htext, by simpa using hflushed, ?_, ?_, .inr ?_⟩
    · simp
    · rw [hmade]
      simp
    · simp

end

theorem Tracks.run : ∀ (ops : List CharOperation) {d : LineDiff} {pre w post new made made' rest : List Char},
    d.Tracks old pre w post new made → d.RunOk old ops → applyOperations ops post = some (made', rest) →
      ∃ d' pre' w' new', pushCharOperations old d ops = some d' ∧ d'.FinishOk old ∧
        d'.Tracks old pre' w' rest new' (made ++ made')
  | [], d, pre, w, post, new, made, made', rest, h, hok, happly => by
      cases happly
      rw [append_nil]
      exact ⟨d, pre, w, new, rfl, hok, h⟩
  | .insert text :: ops, d, pre, w, post, new, made, made', rest, h, hok, happly => by
      obtain ⟨r, hr, heq⟩ := Option.map_eq_some_iff.1 happly
      cases heq
      obtain ⟨d₁, pre₁, w₁, new₁, hpush, h₁⟩ := h.push_insert hok.1
      obtain ⟨d', pre', w', new', hrun, hfin, h'⟩ := Tracks.run ops h₁ (hok.2 d₁ hpush) hr
      refine ⟨d', pre', w', new', ?_, hfin, ?_⟩
      · rw [pushCharOperations, hpush]
        exact hrun
      · rwa [append_assoc] at h'
  | .delete bytes :: ops, d, pre, w, post, new, made, made', rest, h, hok, happly => by
      obtain ⟨⟨x, post'⟩, hx, hr⟩ := Option.bind_eq_some_iff.1 happly
      obtain ⟨rfl, rfl⟩ := splitBytes_some hx
      obtain ⟨d₁, pre₁, w₁, new₁, hpush, h₁⟩ := h.push_delete hok.1
      obtain ⟨d', pre', w', new', hrun, hfin, h'⟩ := Tracks.run ops h₁ (hok.2 d₁ hpush) hr
      refine ⟨d', pre', w', new', ?_, hfin, h'⟩
      rw [pushCharOperations, hpush]
      exact hrun
  | .keep bytes :: ops, d, pre, w, post, new, made, made', rest, h, hok, happly => by
      obtain ⟨⟨x, post'⟩, hx, hmap⟩ := Option.bind_eq_some_iff.1 happly
      obtain ⟨r, hr, heq⟩ := Option.map_eq_some_iff.1 hmap
      cases heq
      obtain ⟨rfl, rfl⟩ := splitBytes_some hx
      obtain ⟨d₁, pre₁, w₁, new₁, hpush, h₁⟩ := h.push_keep hok.1
      obtain ⟨d', pre', w', new', hrun, hfin, h'⟩ := Tracks.run ops h₁ (hok.2 d₁ hpush) hr
      refine ⟨d', pre', w', new', ?_, hfin, ?_⟩
      · rw [pushCharOperations, hpush]
        exact hrun
      · rwa [append_assoc] at h'

/-- What `finish` leaves: the extents of both texts, and rows left over that are the same. -/
theorem Tracks.finish (h : d.Tracks old pre w post new made) (hok : d.FinishOk old) :
    ∃ d' newline, d.finish old = some d' ∧ d'.oldEnd = linesOf old.text ∧
      d'.newEnd = linesOf (made ++ post) ∧
      Aligned newline d'.deletedRows d'.insertedRows old.text [] (made ++ post) := by
  have hinserted := h.standing.flushInsert h.text hok.1
  rw [← h.insertion] at hinserted
  have hdeleted := hinserted.flushDelete h.text (by rw [flushInsert_bufferedDelete, h.deletion]) hok.2
  have htext : old.text = (pre ++ w) ++ post := by rw [h.text, append_assoc]
  have hrest : old.maxPoint.sub ((d.flushInsert old).flushDelete old).oldEnd = some (linesOf post) := by
    rw [Rope.maxPoint, htext, linesOf_append, hdeleted.oldEnd, Point.add_sub]
  have hfinish : d.finish old = some { (d.flushInsert old).flushDelete old with
      oldEnd := old.maxPoint
      newEnd := ((d.flushInsert old).flushDelete old).newEnd.add (linesOf post) } := by
    unfold LineDiff.finish
    dsimp only
    rw [hrest]
    rfl
  refine ⟨_, if post = [] then ((d.flushInsert old).flushDelete old).insertedNewlineAtEnd else false,
    hfinish, rfl, ?_, ?_⟩
  · rw [linesOf_append, ← hdeleted.newEnd]
  · by_cases hpost : post = []
    · rw [if_pos hpost, htext]
      have := hdeleted.aligned
      subst hpost
      simpa using this
    · rw [if_neg hpost, htext]
      exact @Aligned.keep _ _ _ _ [] _ _ (by simpa using hdeleted.aligned) hpost

end LineDiff

end SpkEditor
