import Mathlib.Order.MinMax
import Mathlib.Data.List.Basic

/-!
# Clusters of intervals

Closed intervals that overlap or touch one another. A cluster is a list of them that hangs
together and leaves no gap: from the first interval every other one is reached through intervals
that touch, and every point between the two ends of the cluster lies in one of them. It grows by
any interval that meets it, and an interval that touches none of its members lies wholly to one
side.
-/

namespace SpkEditor.Cover

open List

variable {α : Type} [LinearOrder α]

/-- Two closed intervals have a point in common. -/
def Touches (x y : α × α) : Prop := x.1 ≤ y.2 ∧ y.1 ≤ x.2

/-- From one interval to another, through intervals of the list that touch. -/
def Chained (xs : List (α × α)) : α × α → α × α → Prop :=
  Relation.ReflTransGen fun x y => x ∈ xs ∧ y ∈ xs ∧ Touches x y

theorem Chained.mono {xs ys : List (α × α)} (h : xs ⊆ ys) {x y : α × α} (hc : Chained xs x y) :
    Chained ys x y := by
  induction hc with
  | refl => exact .refl
  | tail _ hstep ih => exact ih.tail ⟨h hstep.1, h hstep.2.1, hstep.2.2⟩

theorem Chained.leaves {xs : List (α × α)} {P : α × α → Prop} {x y : α × α} (hc : Chained xs x y)
    (hx : P x) (hy : ¬ P y) : ∃ a ∈ xs, ∃ b ∈ xs, P a ∧ ¬ P b ∧ Touches a b := by
  induction hc with
  | refl => exact absurd hx hy
  | @tail b c _ hstep ih =>
    by_cases hb : P b
    · exact ⟨b, hstep.1, c, hstep.2.1, hb, hy, hstep.2.2⟩
    · exact ih hb

/-- Intervals that hang together, from `lo` to `hi`. -/
structure Cluster (first : α × α) (xs : List (α × α)) (lo hi : α) : Prop where
  covers : ∀ z, lo ≤ z → z ≤ hi → ∃ x ∈ xs, x.1 ≤ z ∧ z ≤ x.2
  within : ∀ x ∈ xs, lo ≤ x.1 ∧ x.2 ≤ hi
  chained : ∀ x ∈ xs, Chained xs first x
  mem : first ∈ xs
  le : lo ≤ hi

namespace Cluster

variable {first y : α × α} {xs : List (α × α)} {lo hi : α}

theorem single (h : y.1 ≤ y.2) : Cluster y [y] y.1 y.2 where
  covers := fun z h1 h2 => ⟨y, mem_singleton_self y, h1, h2⟩
  within := fun x hx => by
    rw [mem_singleton] at hx
    subst hx
    exact ⟨le_rfl, le_rfl⟩
  chained := fun x hx => by
    rw [mem_singleton] at hx
    subst hx
    exact .refl
  mem := mem_singleton_self y
  le := h

section

variable (hc : Cluster first xs lo hi)
include hc

/-- Some member touches an interval that meets the cluster. -/
theorem exists_touches (hy : y.1 ≤ y.2) (h1 : y.1 ≤ hi)
    (h2 : lo ≤ y.2) : ∃ x ∈ xs, Touches x y := by
  obtain ⟨x, hx, hx1, hx2⟩ := hc.covers (max lo y.1) (le_max_left _ _) (max_le hc.le h1)
  refine ⟨x, hx, hx1.trans (max_le h2 hy), (le_max_right _ _).trans hx2⟩

theorem side (hy : y.1 ≤ y.2) (h : ∀ x ∈ xs, ¬ Touches x y) : hi < y.1 ∨ y.2 < lo := by
  by_contra hcon
  simp only [not_or, not_lt] at hcon
  obtain ⟨x, hx, ht⟩ := hc.exists_touches hy hcon.1 hcon.2
  exact h x hx ht

theorem congr {ys : List (α × α)} (h : ∀ x, x ∈ ys ↔ x ∈ xs) : Cluster first ys lo hi where
  covers := fun z h1 h2 => by
    obtain ⟨x, hx, hz⟩ := hc.covers z h1 h2
    exact ⟨x, (h x).mpr hx, hz⟩
  within := fun x hx => hc.within x ((h x).mp hx)
  chained := fun x hx => (hc.chained x ((h x).mp hx)).mono fun y hy => (h y).mpr hy
  mem := (h first).mpr hc.mem
  le := hc.le

theorem add (hy : y.1 ≤ y.2) (h1 : y.1 ≤ hi) (h2 : lo ≤ y.2) :
    Cluster first (y :: xs) (min lo y.1) (max hi y.2) where
  covers := fun z hz1 hz2 => by
    by_cases hz : lo ≤ z ∧ z ≤ hi
    · obtain ⟨x, hx, hzx⟩ := hc.covers z hz.1 hz.2
      exact ⟨x, mem_cons_of_mem _ hx, hzx⟩
    · refine ⟨y, mem_cons_self .., ?_⟩
      rcases not_and_or.mp hz with hz | hz
      · rw [not_le] at hz
        exact ⟨(min_le_iff.mp hz1).resolve_left (not_le.mpr hz), hz.le.trans h2⟩
      · rw [not_le] at hz
        exact ⟨h1.trans hz.le, (le_max_iff.mp hz2).resolve_left (not_le.mpr hz)⟩
  within := fun x hx => by
    rcases List.mem_cons.mp hx with rfl | hx
    · exact ⟨min_le_right _ _, le_max_right _ _⟩
    · exact ⟨(min_le_left _ _).trans (hc.within x hx).1, (hc.within x hx).2.trans (le_max_left _ _)⟩
  chained := fun x hx => by
    rcases List.mem_cons.mp hx with rfl | hx
    · obtain ⟨w, hw, ht⟩ := hc.exists_touches hy h1 h2
      exact ((hc.chained w hw).mono (subset_cons_self ..)).tail
        ⟨mem_cons_of_mem _ hw, mem_cons_self .., ht⟩
    · exact (hc.chained x hx).mono (subset_cons_self ..)
  mem := mem_cons_of_mem _ hc.mem
  le := (min_le_left _ _).trans (hc.le.trans (le_max_left _ _))

end

end Cluster

theorem pairwise_cases {β : Type} {R : β → β → Prop} {l : List β} (h : l.Pairwise R) {x y : β}
    (hx : x ∈ l) (hy : y ∈ l) : x = y ∨ R x y ∨ R y x :=
  List.Pairwise.forall_of_forall_of_flip (R := fun x y => x = y ∨ R x y ∨ R y x)
    (fun _ _ => .inl rfl) (h.imp fun hr => .inr (.inl hr)) (h.imp fun hr => .inr (.inr hr)) hx hy

end SpkEditor.Cover
