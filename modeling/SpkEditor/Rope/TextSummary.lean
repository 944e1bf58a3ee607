import SpkEditor.Rope.Text

/-!
# Summaries of texts

`TextSummary`: the counts that a tree of texts keeps for its parts. The summary of a text that is
cut in two is the sum of the summaries of the parts (`ofText_append`), the longest row included,
which may be the one that was cut.
-/

namespace SpkEditor

/-- `TextSummary`, and `MBTextSummary`, which has the same fields. -/
structure TextSummary where
  len : Nat
  chars : Nat
  lenUtf16 : Nat
  lines : Point
  firstLineChars : Nat
  lastLineChars : Nat
  lastLineLenUtf16 : Nat
  longestRow : Nat
  longestRowChars : Nat
  deriving DecidableEq

/-- `char::len_utf16`. -/
def lenUtf16 (c : Char) : Nat := if c.val < 0x10000 then 1 else 2

namespace TextSummary

/-- `TextSummary::default`. -/
def zero : TextSummary := ⟨0, 0, 0, .zero, 0, 0, 0, 0, 0⟩

/-- A row, given by its number and its length, in place of the longest one so far. -/
def longer (a b : Nat × Nat) : Nat × Nat := if a.2 < b.2 then b else a

/-- `AddAssign for TextSummary`. -/
def add (s t : TextSummary) : TextSummary :=
  let joinedChars := s.lastLineChars + t.firstLineChars
  let longest := longer (s.longestRow, s.longestRowChars) (s.lines.row, joinedChars)
  let longest := longer longest (s.lines.row + t.longestRow, t.longestRowChars)
  { len := s.len + t.len
    chars := s.chars + t.chars
    lenUtf16 := s.lenUtf16 + t.lenUtf16
    lines := s.lines.add t.lines
    firstLineChars := if s.lines.row = 0 then s.firstLineChars + t.firstLineChars else s.firstLineChars
    lastLineChars := if t.lines.row = 0 then s.lastLineChars + t.firstLineChars else t.lastLineChars
    lastLineLenUtf16 :=
      if t.lines.row = 0 then s.lastLineLenUtf16 + t.lastLineLenUtf16 else t.lastLineLenUtf16
    longestRow := longest.1
    longestRowChars := longest.2 }

/-- One more character in the loop of `From<&str>`. -/
def push (s : TextSummary) (c : Char) : TextSummary :=
  let lines : Point :=
    if c = '\n' then s.lines.add ⟨1, 0⟩ else ⟨s.lines.row, s.lines.column + c.utf8Size⟩
  let lastLineChars := if c = '\n' then 0 else s.lastLineChars + 1
  let longest := longer (s.longestRow, s.longestRowChars) (lines.row, lastLineChars)
  { len := s.len + c.utf8Size
    chars := s.chars + 1
    lenUtf16 := s.lenUtf16 + SpkEditor.lenUtf16 c
    lines := lines
    firstLineChars := if lines.row = 0 then lastLineChars else s.firstLineChars
    lastLineChars := lastLineChars
    lastLineLenUtf16 := if c = '\n' then 0 else s.lastLineLenUtf16 + SpkEditor.lenUtf16 c
    longestRow := longest.1
    longestRowChars := longest.2 }

/-- `From<&str> for TextSummary`. -/
def ofText (text : List Char) : TextSummary := text.foldl push zero

theorem longer_assoc (a b c : Nat × Nat) : longer (longer a b) c = longer a (longer b c) := by
  unfold longer
  by_cases hab : a.2 < b.2 <;> by_cases hbc : b.2 < c.2 <;> by_cases hac : a.2 < c.2 <;>
    simp [hab, hbc, hac] <;> omega

theorem longer_of_le {a b : Nat × Nat} (h : b.2 ≤ a.2) : longer a b = a := if_neg (Nat.not_lt.mpr h)

theorem longer_of_lt {a b : Nat × Nat} (h : a.2 < b.2) : longer a b = b := if_pos h

theorem longer_down (row : Nat) (a b : Nat × Nat) :
    longer (row + a.1, a.2) (row + b.1, b.2) = (row + (longer a b).1, (longer a b).2) := by
  unfold longer
  split <;> rfl

theorem le_longer (a b : Nat × Nat) : a.2 ≤ (longer a b).2 ∧ b.2 ≤ (longer a b).2 := by
  unfold longer
  split <;> omega

/-- What holds of the summary of a text. -/
structure Valid (s : TextSummary) : Prop where
  first : s.lines.row = 0 → s.firstLineChars = s.lastLineChars
  single : s.lines.row = 0 → s.longestRowChars = s.lastLineChars
  last_le : s.lastLineChars ≤ s.longestRowChars

theorem valid_push {s : TextSummary} (h : s.Valid) (c : Char) : (s.push c).Valid := by
  by_cases hc : c = '\n'
  · subst hc
    constructor <;> simp [push, Point.add]
  · refine ⟨?_, ?_, ?_⟩
    · intro hrow
      simp only [push, hc, if_false] at hrow ⊢
      rw [if_pos hrow]
    · intro hrow
      simp only [push, hc, if_false] at hrow ⊢
      rw [longer_of_lt (by simp only [h.single hrow]; omega)]
    · exact (le_longer (s.longestRow, s.longestRowChars) ((s.push c).lines.row, (s.push c).lastLineChars)).2

theorem ofText_append_singleton (text : List Char) (c : Char) :
    ofText (text ++ [c]) = (ofText text).push c := by
  rw [ofText, List.foldl_append]
  rfl

theorem valid_ofText (text : List Char) : (ofText text).Valid := by
  induction text using List.reverseRecOn with
  | nil => exact ⟨fun _ => rfl, fun _ => rfl, Nat.le_refl _⟩
  | append_singleton text c ih =>
    rw [ofText_append_singleton]
    exact valid_push ih c

theorem add_zero {s : TextSummary} (h : s.Valid) : s.add zero = s := by
  have hjoined : longer (s.longestRow, s.longestRowChars) (s.lines.row, s.lastLineChars) =
      (s.longestRow, s.longestRowChars) := longer_of_le h.last_le
  have hnone : longer (s.longestRow, s.longestRowChars) (s.lines.row, 0) =
      (s.longestRow, s.longestRowChars) := longer_of_le (Nat.zero_le _)
  simp [add, zero, Point.zero, Point.add, hjoined, hnone]

theorem add_push_newline (s t : TextSummary) : s.add (t.push '\n') = (s.add t).push '\n' := by
  have hlongest : ∀ a : Nat × Nat, ∀ row, longer a (row, 0) = a := fun a row =>
    longer_of_le (Nat.zero_le _)
  have hlines : s.lines.add (t.lines.add ⟨1, 0⟩) = (s.lines.add t.lines).add ⟨1, 0⟩ :=
    (Point.add_assoc ..).symm
  have hrow : (t.lines.add ⟨1, 0⟩).row ≠ 0 := by simp [Point.add]
  have hrow' : ((s.lines.add t.lines).add ⟨1, 0⟩).row ≠ 0 := by simp [Point.add]
  simp only [add, push, if_true, hlongest, hlines, hrow, hrow', if_false, Nat.add_assoc, Prod.eta]

theorem longer_joined (a : Nat × Nat) (row m n k : Nat) :
    longer (longer a (row, m + (n + 1)))
        (row + (longer (k, n) (0, n + 1)).1, (longer (k, n) (0, n + 1)).2) =
      longer (longer (longer a (row, m + n)) (row + k, n)) (row, m + n + 1) := by
  have hshort : longer (longer a (row, m + (n + 1))) (row, n + 1) = longer a (row, m + (n + 1)) := by
    refine longer_of_le ?_
    have := (le_longer a (row, m + (n + 1))).2
    omega
  have hshort' : longer (longer a (row, m + n)) (row + k, n) = longer a (row, m + n) := by
    refine longer_of_le ?_
    have := (le_longer a (row, m + n)).2
    omega
  have hone : longer (k, n) (0, n + 1) = (0, n + 1) := longer_of_lt (Nat.lt_succ_self n)
  have hjoined : longer (row, m + n) (row, m + n + 1) = (row, m + n + 1) :=
    longer_of_lt (Nat.lt_succ_self _)
  rw [hone, hshort', longer_assoc a (row, m + n), hjoined]
  exact hshort

/-- The joined row gets longer, or the last row of the second text. -/
theorem add_push {s t : TextSummary} (hs : s.Valid) (ht : t.Valid) {c : Char} (hc : c ≠ '\n') :
    s.add (t.push c) = (s.add t).push c := by
  have hlines : s.lines.add ⟨t.lines.row, t.lines.column + c.utf8Size⟩ =
      ⟨(s.lines.add t.lines).row, (s.lines.add t.lines).column + c.utf8Size⟩ := by
    unfold Point.add
    split <;> simp [Nat.add_assoc]
  simp only [add, push, hc, if_false, hlines, mk.injEq, true_and]
  refine ⟨by omega, by omega, by omega, ?_⟩
  by_cases hrow : t.lines.row = 0
  · have hfirst := ht.first hrow
    have hsum : (s.lines.add t.lines).row = s.lines.row := by simp [Point.add, hrow]
    have hlongest := longer_joined (s.longestRow, s.longestRowChars) s.lines.row s.lastLineChars
      t.lastLineChars t.longestRow
    simp only [hrow, if_true, hfirst, ht.single hrow, hsum, hlongest, Prod.eta, and_self, and_true]
    refine ⟨?_, by omega, by omega⟩
    split
    · next h0 => rw [hs.first h0]; omega
    · rfl
  · have hsum : (s.lines.add t.lines).row = s.lines.row + t.lines.row := by simp [Point.add, hrow]
    have hsum' : s.lines.row + t.lines.row ≠ 0 := by omega
    have hlongest := longer_down s.lines.row (t.longestRow, t.longestRowChars)
      (t.lines.row, t.lastLineChars + 1)
    simp only [hrow, if_false, hsum, hsum', Prod.eta, ← hlongest, longer_assoc, and_self]

theorem ofText_append (a b : List Char) : ofText (a ++ b) = (ofText a).add (ofText b) := by
  induction b using List.reverseRecOn with
  | nil => rw [List.append_nil, show ofText [] = zero from rfl, add_zero (valid_ofText a)]
  | append_singleton b c ih =>
    rw [← List.append_assoc, ofText_append_singleton, ofText_append_singleton, ih]
    by_cases hc : c = '\n'
    · rw [hc, add_push_newline]
    · rw [add_push (valid_ofText a) (valid_ofText b) hc]

@[simp] theorem len_ofText (text : List Char) : (ofText text).len = byteLen text := by
  induction text using List.reverseRecOn with
  | nil => rfl
  | append_singleton text c ih =>
    rw [ofText_append_singleton, byteLen_append, ← ih]
    simp [push]

/-! ## Newlines -/

/-- `TextSummary::newline`. -/
def newline : TextSummary :=
  { len := 1
    chars := 1
    lenUtf16 := 1
    firstLineChars := 0
    lastLineChars := 0
    lastLineLenUtf16 := 0
    lines := ⟨1, 0⟩
    longestRow := 0
    longestRowChars := 0 }

/-- `TextSummary::add_newline`. -/
def addNewline (s : TextSummary) : TextSummary :=
  { s with
    len := s.len + 1
    -- the sum is added to what is there already
    lenUtf16 := s.lenUtf16 + (s.lenUtf16 + 1)
    lastLineChars := 0
    lastLineLenUtf16 := 0
    lines := s.lines.add ⟨1, 0⟩ }

theorem add_newline (text : List Char) : (ofText text).add newline = ofText (text ++ ['\n']) :=
  (ofText_append text ['\n']).symm

/-- **`add_newline` is wrong on every text**: it does not count the character, which the sum of the
summaries does. -/
theorem addNewline_ne (text : List Char) :
    (ofText text).add newline = ofText (text ++ ['\n']) ∧
      (ofText text).addNewline ≠ (ofText text).add newline := by
  refine ⟨add_newline text, fun h => ?_⟩
  have hchars : (ofText text).chars = (ofText text).chars + 1 := congrArg TextSummary.chars h
  exact absurd hchars (Nat.ne_of_lt (Nat.lt_succ_self _))

/-- An `a` and a newline: three UTF-16 units and one character. -/
theorem addNewline_wrong :
    ¬ ((ofText ['a']).addNewline = (ofText ['a']).add newline ∧
      (ofText ['a']).addNewline = ofText ['a', '\n']) := by
  decide

end TextSummary

end SpkEditor
