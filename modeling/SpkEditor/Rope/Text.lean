import SpkEditor.Lib.Rows
import SpkEditor.Lib.Utf8

/-!
# Points of a text

A rope is a text that is cut into chunks. Offsets count bytes; a point counts rows, and
bytes in the last of them. Here both are read off the text as a whole, whatever the
chunks: `linesOf` is the extent of a text, `offsetToPoint` and `pointToOffset` go back
and forth between the two at every character boundary.
-/

namespace SpkEditor

open List

/-- A text that is cut into chunks. -/
structure Rope where
  chunks : List (List Char)

structure Point where
  row : Nat
  column : Nat
  deriving DecidableEq

namespace Point

def zero : Point := ⟨0, 0⟩

/-- `Add for Point`. -/
def add (p q : Point) : Point :=
  if q.row = 0 then ⟨p.row, p.column + q.column⟩ else ⟨p.row + q.row, q.column⟩

/-- `Ord for Point`. -/
def lt (p q : Point) : Prop := p.row < q.row ∨ p.row = q.row ∧ p.column < q.column

instance (p q : Point) : Decidable (p.lt q) := inferInstanceAs (Decidable (_ ∨ _))

/-- `Sub for Point`: an operand above the other one is a panic. -/
def sub (p q : Point) : Option Point :=
  if p.lt q then none
  else if p.row = q.row then some ⟨0, p.column - q.column⟩
  else some ⟨p.row - q.row, p.column⟩

@[simp] theorem zero_add (p : Point) : zero.add p = p := by
  unfold add zero
  split
  · rename_i h
    rw [Nat.zero_add, ← h]
  · rw [Nat.zero_add]

theorem add_assoc (p q r : Point) : (p.add q).add r = p.add (q.add r) := by
  by_cases hq : q.row = 0 <;> by_cases hr : r.row = 0 <;> simp [add, hq, hr, Nat.add_assoc]

theorem add_sub (p q : Point) : (p.add q).sub p = some q := by
  have hlt : ¬ (p.add q).lt p := by
    unfold lt add
    split
    · simp
    · simp only
      omega
  rw [sub, if_neg hlt]
  by_cases hq : q.row = 0
  · obtain ⟨row, column⟩ := q
    subst hq
    simp [add]
  · simp [add, hq]

theorem lt_add {p q : Point} (h : q ≠ zero) : p.lt (p.add q) := by
  unfold lt add
  split
  · rename_i hrow
    refine Or.inr ⟨rfl, ?_⟩
    have hcol : q.column ≠ 0 := by
      intro hcol
      obtain ⟨row, column⟩ := q
      exact h (by rw [show row = 0 from hrow, show column = 0 from hcol]; rfl)
    simp only
    omega
  · exact Or.inl (by simp only; omega)

end Point

/-! ## The extent of a text -/

/-- `TextSummary::from(text).lines`. -/
def linesOf (text : List Char) : Point :=
  text.foldl (fun p c => if c = '\n' then p.add ⟨1, 0⟩ else ⟨p.row, p.column + c.utf8Size⟩) .zero

theorem linesOf_step (p : Point) (c : Char) :
    (if c = '\n' then p.add ⟨1, 0⟩ else ⟨p.row, p.column + c.utf8Size⟩) = p.add (linesOf [c]) := by
  by_cases hc : c = '\n'
  · subst hc
    rfl
  · simp [linesOf, hc, Point.add, Point.zero]

theorem foldl_linesOf (p : Point) (text : List Char) :
    text.foldl (fun p c => if c = '\n' then p.add ⟨1, 0⟩ else ⟨p.row, p.column + c.utf8Size⟩) p =
      p.add (linesOf text) := by
  induction text generalizing p with
  | nil => simp [linesOf, Point.add, Point.zero]
  | cons c text ih =>
    rw [foldl_cons, ih, linesOf_step, Point.add_assoc]
    conv_rhs => rw [linesOf, foldl_cons, ih, linesOf_step, Point.zero_add]

theorem linesOf_append (s t : List Char) : linesOf (s ++ t) = (linesOf s).add (linesOf t) := by
  conv_lhs => rw [linesOf, foldl_append]
  rw [foldl_linesOf]
  rfl

theorem linesOf_cons (c : Char) (t : List Char) : linesOf (c :: t) = (linesOf [c]).add (linesOf t) :=
  linesOf_append [c] t

theorem linesOf_ne_zero {t : List Char} (h : t ≠ []) : linesOf t ≠ .zero := by
  obtain ⟨c, t, rfl⟩ := exists_cons_of_ne_nil h
  have hc : Point.zero.lt (linesOf [c]) := by
    by_cases hn : c = '\n'
    · subst hn
      decide
    · have := c.utf8Size_pos
      simp [linesOf, hn, Point.lt, Point.zero, this]
  intro hz
  rw [linesOf_cons] at hz
  unfold Point.lt Point.zero at hc
  have hrow := congrArg Point.row hz
  have hcol := congrArg Point.column hz
  unfold Point.add Point.zero at hrow hcol
  split at hrow <;> simp_all

theorem linesOf_of_not_mem {u : List Char} (h : '\n' ∉ u) : linesOf u = ⟨0, byteLen u⟩ := by
  induction u with
  | nil => rfl
  | cons c u ih =>
    rw [mem_cons, not_or] at h
    rw [linesOf_cons, ih h.2]
    simp [linesOf, Ne.symm h.1, Point.add, Point.zero]

theorem linesOf_eq (s : List Char) :
    linesOf s = ⟨Rows.lastIx '\n' s, byteLen (Rows.lastRow '\n' s)⟩ := by
  induction s using List.reverseRecOn with
  | nil => rfl
  | append_singleton s c ih =>
    rw [linesOf_append, ih]
    by_cases hc : c = '\n'
    · subst hc
      rw [Rows.lastIx_append_sep, Rows.lastRow_append_sep]
      rfl
    · have hmem : '\n' ∉ [c] := by simpa using Ne.symm hc
      obtain ⟨hclosed, hlast⟩ := Rows.of_splitOn (@Rows.splitOn_append_of_not_mem _ _ '\n' s [c] hmem)
      rw [linesOf_of_not_mem hmem, Rows.lastIx, Rows.lastIx, hclosed, hlast, byteLen_append]
      simp [Point.add]

theorem linesOf_row (s : List Char) : (linesOf s).row = Rows.lastIx '\n' s := by rw [linesOf_eq]

theorem linesOf_column (s : List Char) : (linesOf s).column = byteLen (Rows.lastRow '\n' s) := by
  rw [linesOf_eq]

theorem linesOf_column_eq_zero {s : List Char} :
    (linesOf s).column = 0 ↔ Rows.lastRow '\n' s = [] := by
  rw [linesOf_column, byteLen_eq_zero]

/-! ## Coordinates -/

/-- `offset_to_point`: a column may also count the first bytes of a character. -/
def offsetToPoint (text : List Char) (offset : Nat) : Point :=
  let before := (splitFloor offset text).1
  (linesOf before).add ⟨0, min offset (byteLen text) - byteLen before⟩

def rowStart (text : List Char) (row : Nat) : Nat :=
  (((text.splitOn '\n').take row).map fun r => byteLen r + 1).sum

/-- `line_len`. -/
def lineLen (text : List Char) (row : Nat) : Nat :=
  (((text.splitOn '\n')[row]?).map byteLen).getD (linesOf text).column

/-- `point_to_offset`. -/
def pointToOffset (text : List Char) (p : Point) : Nat :=
  if p.lt (linesOf text) then rowStart text p.row + min p.column (lineLen text p.row) else byteLen text

theorem splitFloor_byteLen (s t : List Char) : splitFloor (byteLen s) (s ++ t) = (s, t) := by
  induction s with
  | nil =>
    cases t with
    | nil => rfl
    | cons c t =>
      have := c.utf8Size_pos
      rw [nil_append, byteLen_nil, splitFloor, if_neg (by omega)]
  | cons c s ih =>
    rw [cons_append, splitFloor, byteLen_cons, if_pos (by omega), Nat.add_sub_cancel_left, ih]

theorem offsetToPoint_byteLen (s t : List Char) : offsetToPoint (s ++ t) (byteLen s) = linesOf s := by
  unfold offsetToPoint
  rw [splitFloor_byteLen, byteLen_append, Nat.min_eq_left (Nat.le_add_right _ _)]
  simp [Point.add]

theorem byteLen_closedRows (s : List Char) :
    ((Rows.closedRows '\n' s).map fun r => byteLen r + 1).sum + byteLen (Rows.lastRow '\n' s) =
      byteLen s := by
  induction s using List.reverseRecOn with
  | nil => rfl
  | append_singleton s c ih =>
    rw [byteLen_append, ← ih]
    by_cases hc : c = '\n'
    · subst hc
      have h : (s ++ ['\n']).splitOn '\n' = s.splitOn '\n' ++ [[]] := splitOn_append_cons_self s []
      obtain ⟨hclosed, hlast⟩ := Rows.of_splitOn h
      rw [hclosed, hlast, Rows.splitOn_eq '\n' s]
      simp [Nat.add_assoc]
      rfl
    · have hmem : '\n' ∉ [c] := by simpa using Ne.symm hc
      obtain ⟨hclosed, hlast⟩ := Rows.of_splitOn (@Rows.splitOn_append_of_not_mem _ _ '\n' s [c] hmem)
      rw [hclosed, hlast, byteLen_append, Nat.add_assoc]

theorem rowStart_lastIx (s t : List Char) :
    rowStart (s ++ t) (Rows.lastIx '\n' s) + byteLen (Rows.lastRow '\n' s) = byteLen s := by
  have htake : ((s ++ t).splitOn '\n').take (Rows.lastIx '\n' s) = Rows.closedRows '\n' s := by
    rw [Rows.splitOn_append]
    exact take_left
  rw [rowStart, htake, byteLen_closedRows]

/-- The row that a part of a text ends in goes on with what follows. -/
theorem lineLen_lastIx (s t : List Char) :
    lineLen (s ++ t) (Rows.lastIx '\n' s) =
      byteLen (Rows.lastRow '\n' s) + byteLen (t.takeWhile (· ≠ '\n')) := by
  rw [lineLen, Rows.getElem?_lastIx, Option.map_some, Option.getD_some, byteLen_append]

theorem pointToOffset_linesOf (s t : List Char) : pointToOffset (s ++ t) (linesOf s) = byteLen s := by
  unfold pointToOffset
  by_cases ht : t = []
  · subst ht
    rw [append_nil, if_neg]
    unfold Point.lt
    omega
  · have hlt : (linesOf s).lt (linesOf (s ++ t)) := by
      rw [linesOf_append]
      exact Point.lt_add (linesOf_ne_zero ht)
    rw [if_pos hlt, linesOf_row, linesOf_column, lineLen_lastIx, Nat.min_eq_left (Nat.le_add_right _ _)]
    exact rowStart_lastIx s t

/-- The part of a text between two offsets. -/
def sliceBytes (text : List Char) (start stop : Nat) : List Char :=
  (splitFloor start (splitFloor stop text).1).2

/-- `chunks_in_range`: what each chunk holds of the range. -/
def chunksInRange : List (List Char) → Nat → Nat → List (List Char)
  | [], _, _ => []
  | chunk :: chunks, start, stop =>
    sliceBytes chunk start stop ::
      chunksInRange chunks (start - byteLen chunk) (stop - byteLen chunk)

namespace Rope

def text (r : Rope) : List Char := r.chunks.flatten

def maxPoint (r : Rope) : Point := linesOf r.text

end Rope

end SpkEditor
