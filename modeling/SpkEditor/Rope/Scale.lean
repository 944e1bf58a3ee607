import SpkEditor.Rope.ChunksProof
import SpkEditor.Rope.Summary

/-!
# Scales

A position of a text is what a dimension says of the characters in front of it: an offset in bytes or in UTF-16
units, or a point of either. A `Scale` is such a dimension with the order of its positions, their difference
and their rows. It is lawful if a longer text is at a later position, and adding to a position keeps the order.

Clipping takes any value to a position of the text (`ClipLaws`).
-/

namespace SpkEditor.Chunked

open Chunks (LineStart)

structure Scale (D : Type) where
  dim : TextDimension D
  lt : D → D → Bool
  sub : D → D → Option D
  row : D → Nat

namespace Scale

variable {D : Type}

/-- The position behind a text. -/
def pos (m : Scale D) (text : List Char) : D := m.dim.ofText text

def Le (m : Scale D) (p q : D) : Prop := ¬ m.lt q p

/-- The position exists in the text. -/
def At (m : Scale D) (text : List Char) (p : D) : Prop := ∃ x z, text = x ++ z ∧ m.pos x = p

/-- Behind all that the text has in its row, which may be nothing. -/
def Past (m : Scale D) (text : List Char) (q : D) : Prop :=
  ∀ x z, text = x ++ z → m.row (m.pos x) = m.row q → m.lt (m.pos x) q

structure Lawful (m : Scale D) : Prop where
  dim : m.dim.Lawful
  asymm : ∀ {p q}, m.lt p q → m.Le p q
  trans : ∀ {p q r}, m.lt p q → m.lt q r → m.lt p r
  start_le : ∀ q, m.Le (m.pos []) q
  grows : ∀ (s : List Char) {t}, t ≠ [] → m.lt (m.pos s) (m.pos (s ++ t))
  sub : ∀ {p q}, m.Le p q → ∃ o, m.sub q p = some o ∧ m.dim.addAssign p o = q
  add_sub : ∀ p o, m.sub (m.dim.addAssign p o) p = some o
  add_lt : ∀ p o o', m.lt (m.dim.addAssign p o) (m.dim.addAssign p o') ↔ m.lt o o'
  row_le : ∀ {p q}, m.Le p q → m.row p ≤ m.row q
  row_add : ∀ p o, m.row (m.dim.addAssign p o) = m.row p + m.row o

def offsets (d : TextDimension Nat) : Scale Nat := ⟨d, fun p q => p < q, Patch.checkedSub, fun _ => 0⟩

def points (d : TextDimension Point) : Scale Point := ⟨d, fun p q => p.lt q, Point.sub, Point.row⟩

/-! ## Positions of a text -/

section

variable {m : Scale D} {text x z : List Char}

section

variable (hm : m.Lawful)
include hm

theorem Lawful.irrefl (p : D) : m.Le p p := fun h => hm.asymm h h

theorem Lawful.pos_append (s t : List Char) :
    m.pos (s ++ t) = m.dim.addAssign (m.pos s) (m.pos t) :=
  (hm.dim.addAssign s t).symm

theorem Lawful.pos_le (s t : List Char) : m.Le (m.pos s) (m.pos (s ++ t)) := by
  by_cases ht : t = []
  · rw [ht, List.append_nil]
    exact hm.irrefl _
  · exact hm.asymm (hm.grows s ht)

theorem Lawful.eq_end (htext : text = x ++ z) (hle : m.Le (m.pos text) (m.pos x)) : z = [] := by
  by_contra hz
  exact hle (htext ▸ hm.grows x hz)

/-- What is in front of a position is in front of every later one. -/
theorem Lawful.lt_pos_append {q : D} (s t : List Char) (h : m.lt q (m.pos s)) :
    m.lt q (m.pos (s ++ t)) := by
  by_cases ht : t = []
  · rwa [ht, List.append_nil]
  · exact hm.trans h (hm.grows s ht)

theorem Lawful.pos_lt_of_lt {q : D} (s t : List Char) (h : m.lt (m.pos (s ++ t)) q) :
    m.lt (m.pos s) q := by
  by_cases ht : t = []
  · rwa [ht, List.append_nil] at h
  · exact hm.trans (hm.grows s ht) h

theorem Lawful.past_of_lt {q : D} (h : m.lt (m.pos text) q) : m.Past text q := by
  rintro x z rfl -
  exact hm.pos_lt_of_lt x z h

theorem Lawful.le_add (s : List Char) (o : D) : m.Le (m.pos s) (m.dim.addAssign (m.pos s) o) := by
  intro h
  have hstart : m.dim.addAssign (m.pos s) (m.pos []) = m.pos s := by rw [← hm.pos_append, List.append_nil]
  exact hm.start_le o ((hm.add_lt (m.pos s) o (m.pos [])).mp (hstart.symm ▸ h))

end

end

/-! ## The scales of a rope -/

theorem offsets_lawful {d : TextDimension Nat} (hd : d.Lawful) (hadd : ∀ p o, d.addAssign p o = p + o)
    (hpos : ∀ {t : List Char}, t ≠ [] → 0 < d.ofText t) : (offsets d).Lawful := by
  refine ⟨hd, ?_, ?_, ?_, ?_, ?_, ?_, ?_, fun _ => Nat.le_refl 0, fun _ _ => rfl⟩
  · intro p q h
    simp only [Le, offsets, decide_eq_true_eq] at h ⊢
    omega
  · intro p q r h h'
    simp only [offsets, decide_eq_true_eq] at h h' ⊢
    omega
  · intro q
    have hzero : d.ofText [] = d.ofText [] + d.ofText [] := (hd.addAssign [] []).symm.trans (hadd _ _)
    simp only [Le, offsets, pos, decide_eq_true_eq]
    omega
  · intro s t ht
    have hlen : d.ofText (s ++ t) = d.ofText s + d.ofText t := (hd.addAssign s t).symm.trans (hadd _ _)
    have := hpos ht
    simp only [offsets, pos, decide_eq_true_eq, hlen]
    omega
  · intro p q h
    simp only [Le, offsets, decide_eq_true_eq] at h
    refine ⟨q - p, if_pos (Nat.le_of_not_lt h), ?_⟩
    change d.addAssign p (q - p) = q
    rw [hadd]
    omega
  · intro p o
    change Patch.checkedSub (d.addAssign p o) p = some o
    rw [hadd, Patch.checkedSub, if_pos (Nat.le_add_right p o), Nat.add_sub_cancel_left]
  · intro p o o'
    simp only [offsets, hadd, decide_eq_true_eq]
    omega

theorem points_lawful {d : TextDimension Point} (hd : d.Lawful) (hadd : ∀ p o, d.addAssign p o = p.add o)
    (hstart : d.ofText [] = .zero) (hpos : ∀ {t : List Char}, t ≠ [] → d.ofText t ≠ .zero) :
    (points d).Lawful := by
  refine ⟨hd, ?_, ?_, ?_, ?_, ?_, ?_, ?_, ?_, ?_⟩
  · intro p q h
    simp only [Le, points, decide_eq_true_eq] at h ⊢
    unfold Point.lt at h ⊢
    omega
  · intro p q r h h'
    simp only [points, decide_eq_true_eq] at h h' ⊢
    unfold Point.lt at h h' ⊢
    omega
  · intro q
    simp only [Le, points, pos, hstart, decide_eq_true_eq]
    rintro (h | ⟨-, h⟩)
    · exact Nat.not_lt_zero _ h
    · exact Nat.not_lt_zero _ h
  · intro s t ht
    have hlen : d.ofText (s ++ t) = (d.ofText s).add (d.ofText t) := (hd.addAssign s t).symm.trans (hadd _ _)
    simp only [points, pos, decide_eq_true_eq, hlen]
    exact Point.lt_add (hpos ht)
  · intro p q h
    simp only [Le, points, decide_eq_true_eq] at h
    change ∃ o, q.sub p = some o ∧ d.addAssign p o = q
    rw [Point.sub, if_neg h]
    by_cases hrow : q.row = p.row
    · refine ⟨_, if_pos hrow, ?_⟩
      have hcolumn : p.column ≤ q.column := by
        unfold Point.lt at h
        omega
      simp [hadd, Point.add, ← hrow, Nat.add_sub_cancel' hcolumn]
    · refine ⟨_, if_neg hrow, ?_⟩
      have hlt : p.row < q.row := by
        unfold Point.lt at h
        omega
      have hne : q.row - p.row ≠ 0 := by omega
      simp [hadd, Point.add, hne, Nat.add_sub_cancel' (Nat.le_of_lt hlt)]
  · intro p o
    change (d.addAssign p o).sub p = some o
    rw [hadd, Point.add_sub]
  · intro p o o'
    simp only [points, hadd, decide_eq_true_eq]
    unfold Point.lt Point.add
    by_cases ho : o.row = 0 <;> by_cases ho' : o'.row = 0 <;> (simp [ho, ho']; try omega)
  · intro p q h
    simp only [Le, points, decide_eq_true_eq] at h ⊢
    unfold Point.lt at h
    omega
  · intro p o
    change (d.addAssign p o).row = p.row + o.row
    rw [hadd, Point.add]
    by_cases ho : o.row = 0
    · rw [if_pos ho, ho, Nat.add_zero]
    · rw [if_neg ho]

section

variable {t : List Char} (ht : t ≠ [])
include ht

theorem ofText_usize_pos : 0 < TextDimension.usize.ofText t :=
  (byteLen_pos ht).trans_eq (TextSummary.len_ofText t).symm

theorem unitsOf_pos : 0 < unitsOf t := by
  obtain ⟨c, t, rfl⟩ := List.exists_cons_of_ne_nil ht
  have hc : 0 < SpkEditor.lenUtf16 c := by
    rw [SpkEditor.lenUtf16]
    split <;> omega
  rw [unitsOf, List.map_cons, List.sum_cons]
  omega

theorem ofText_offsetUtf16_pos : 0 < TextDimension.offsetUtf16.ofText t :=
  (unitsOf_pos ht).trans_eq (lenUtf16_ofText t).symm

end

theorem pos_usize (t : List Char) : (offsets .usize).pos t = byteLen t := TextSummary.len_ofText t

theorem pos_offsetUtf16 (t : List Char) : (offsets .offsetUtf16).pos t = unitsOf t := lenUtf16_ofText t

theorem usize_lawful : (offsets .usize).Lawful :=
  offsets_lawful TextDimension.usize_lawful (fun _ _ => rfl) ofText_usize_pos

theorem offsetUtf16_lawful : (offsets .offsetUtf16).Lawful :=
  offsets_lawful TextDimension.offsetUtf16_lawful (fun _ _ => rfl) ofText_offsetUtf16_pos

/-- The points of a text have its newlines as rows, and the offset behind the last one as the column. -/
structure Rowed (d : TextDimension Point) (e : TextDimension Nat) : Prop where
  row : ∀ t, (d.ofText t).row = t.count '\n'
  line : ∀ {before u}, LineStart before → '\n' ∉ u → d.ofText (before ++ u) = ⟨before.count '\n', e.ofText u⟩

theorem point_rowed : Rowed .point .usize := by
  refine ⟨row_ofText, fun {before u} hbefore hu => ?_⟩
  have hrow := row_ofText (before ++ u)
  rw [List.count_append, List.count_eq_zero.mpr hu, Nat.add_zero] at hrow
  rcases hbefore with rfl | ⟨before, rfl⟩
  · have hlines : (TextSummary.ofText u).lines = _ := congrArg TextSummary.lines (ofText_of_not_mem hu)
    exact hlines.trans (congrArg (Point.mk 0) (pos_usize u).symm)
  · have hcolumn := (lastLine_ofText before hu).1
    rw [← List.singleton_append, ← List.append_assoc] at hcolumn
    rw [← hrow, show TextDimension.usize.ofText u = _ from pos_usize u, ← hcolumn]
    rfl

theorem pointUtf16_rowed : Rowed .pointUtf16 .offsetUtf16 := by
  refine ⟨row_ofText, fun {before u} hbefore hu => ?_⟩
  have hrow := row_ofText (before ++ u)
  rw [List.count_append, List.count_eq_zero.mpr hu, Nat.add_zero] at hrow
  rcases hbefore with rfl | ⟨before, rfl⟩
  · have hlines := congrArg TextDimension.linesUtf16 (ofText_of_not_mem hu)
    exact hlines.trans (congrArg (Point.mk 0) (pos_offsetUtf16 u).symm)
  · have hcolumn := (lastLine_ofText before hu).2.2
    rw [← List.singleton_append, ← List.append_assoc] at hcolumn
    rw [← hrow, show TextDimension.offsetUtf16.ofText u = _ from pos_offsetUtf16 u, ← hcolumn]
    rfl

theorem Rowed.ne_zero {d : TextDimension Point} {e : TextDimension Nat} (h : Rowed d e)
    (hpos : ∀ {t : List Char}, t ≠ [] → 0 < e.ofText t) {t : List Char} (ht : t ≠ []) : d.ofText t ≠ .zero := by
  intro hzero
  have hnone : '\n' ∉ t := by
    rw [← List.count_eq_zero, ← h.row, hzero]
    rfl
  have hline : d.ofText t = ⟨0, e.ofText t⟩ := @h.line [] t (.inl rfl) hnone
  have hcolumn := congrArg Point.column (hline.symm.trans hzero)
  exact Nat.ne_of_gt (hpos ht) hcolumn

theorem point_lawful : (points .point).Lawful :=
  points_lawful TextDimension.point_lawful (fun _ _ => rfl) rfl (point_rowed.ne_zero ofText_usize_pos)

theorem pointUtf16_lawful : (points .pointUtf16).Lawful :=
  points_lawful TextDimension.pointUtf16_lawful (fun _ _ => rfl) rfl
    (pointUtf16_rowed.ne_zero ofText_offsetUtf16_pos)

/-! ## Clipping -/

/-- **What clipping is for.** It gives a position of the text, which it keeps whatever the bias; to the left
one that is not above the argument, and to the right one that is not below it, unless there is none in its row. -/
structure ClipLaws (m : Scale D) (text : List Char) (clip : D → Bias → Option D) : Prop where
  exists_at : ∀ q bias, ∃ p, clip q bias = some p ∧ m.At text p
  again : ∀ {q bias p}, clip q bias = some p → ∀ bias', clip p bias' = some p
  left_le : ∀ {q p}, clip q .left = some p → m.Le p q
  le_right : ∀ {q p}, clip q .right = some p → m.Le q p ∨ m.Past text q
  left_le_right : ∀ {q l r}, clip q .left = some l → clip q .right = some r → m.Le l r

section

variable {m : Scale D} {text : List Char} {clip : D → Bias → Option D}

/-- A position that clipping keeps. -/
def Settled (m : Scale D) (text : List Char) (clip : D → Bias → Option D) (p : D) : Prop :=
  m.At text p ∧ ∀ bias, clip p bias = some p

theorem ClipLaws.of
    (h : ∀ q, ∃ l r, clip q .left = some l ∧ clip q .right = some r ∧ m.Settled text clip l ∧
      m.Settled text clip r ∧ m.Le l q ∧ (m.Le q r ∨ m.Past text q) ∧ m.Le l r) : m.ClipLaws text clip := by
  refine ⟨fun q bias => ?_, fun {q bias p} hp => ?_, fun {q p} hp => ?_, fun {q p} hp => ?_,
    fun {q l r} hl hr => ?_⟩
  · obtain ⟨l, r, hleft, hright, hl, hr, -⟩ := h q
    cases bias with
    | left => exact ⟨l, hleft, hl.1⟩
    | right => exact ⟨r, hright, hr.1⟩
  · obtain ⟨l, r, hleft, hright, hl, hr, -⟩ := h q
    cases bias with
    | left =>
      obtain rfl := Option.some.inj (hleft.symm.trans hp)
      exact hl.2
    | right =>
      obtain rfl := Option.some.inj (hright.symm.trans hp)
      exact hr.2
  · obtain ⟨l, r, hleft, -, -, -, hle, -⟩ := h q
    obtain rfl := Option.some.inj (hleft.symm.trans hp)
    exact hle
  · obtain ⟨l, r, -, hright, -, -, -, hle, -⟩ := h q
    obtain rfl := Option.some.inj (hright.symm.trans hp)
    exact hle
  · obtain ⟨l', r', hleft, hright, -, -, -, -, hle⟩ := h q
    obtain rfl := Option.some.inj (hleft.symm.trans hl)
    obtain rfl := Option.some.inj (hright.symm.trans hr)
    exact hle

section

variable (h : m.ClipLaws text clip)
include h

theorem ClipLaws.clips (q : D) :
    ∃ l r, clip q .left = some l ∧ clip q .right = some r ∧ m.Settled text clip l ∧ m.Settled text clip r ∧
      m.Le l q ∧ (m.Le q r ∨ m.Past text q) ∧ m.Le l r := by
  obtain ⟨l, hleft, hl⟩ := h.exists_at q .left
  obtain ⟨r, hright, hr⟩ := h.exists_at q .right
  exact ⟨l, r, hleft, hright, ⟨hl, h.again hleft⟩, ⟨hr, h.again hright⟩, h.left_le hleft, h.le_right hright,
    h.left_le_right hleft hright⟩

theorem ClipLaws.start (hm : m.Lawful) (bias : Bias) :
    clip (m.pos []) bias = some (m.pos []) := by
  obtain ⟨p, hp, x, z, -, rfl⟩ := h.exists_at (m.pos []) .left
  have hx : x = [] := hm.eq_end (List.nil_append x).symm (h.left_le hp)
  subst hx
  exact h.again hp bias

theorem ClipLaws.stop (hm : m.Lawful) (bias : Bias) :
    clip (m.pos text) bias = some (m.pos text) := by
  obtain ⟨p, hp, x, z, htext, rfl⟩ := h.exists_at (m.pos text) .right
  have hz : z = [] := by
    rcases h.le_right hp with hle | hpast
    · exact hm.eq_end htext hle
    · exact absurd (hpast text [] (List.append_nil text).symm rfl) (hm.irrefl _)
  subst hz
  rw [htext, List.append_nil] at hp ⊢
  exact h.again hp bias

end

end

theorem le_offsets {d : TextDimension Nat} {p q : Nat} : (offsets d).Le p q ↔ p ≤ q := by
  rw [Le, offsets, decide_eq_true_iff, Nat.not_lt]

theorem le_points {d : TextDimension Point} {p q : Point} :
    (points d).Le p q ↔ p.row < q.row ∨ p.row = q.row ∧ p.column ≤ q.column := by
  rw [Le, points, decide_eq_true_iff, Point.lt]
  omega

theorem past_offsets {d : TextDimension Nat} (hm : (offsets d).Lawful) {text : List Char} {q : Nat} :
    (offsets d).Past text q ↔ d.ofText text < q := by
  constructor
  · intro h
    exact of_decide_eq_true (h text [] (List.append_nil text).symm rfl)
  · intro h
    exact hm.past_of_lt (decide_eq_true h)

end Scale

end SpkEditor.Chunked
