import Mathlib.Data.List.DropRight

/-!
# Paging backwards

A list whose keys increase is read in pages, the newest first: a page is the last few of the
elements whose keys are below a bound, and the bound of the next page is the smallest key of
this one. A page cuts what is below its bound into a first part and itself, and the first part
is what is below the next bound, so the pages together are the list.
-/

namespace SpkEditor.Paging

open List

variable {α : Type} (key : α → Nat)

def Increasing (xs : List α) : Prop := xs.Pairwise fun x y => key x < key y

/-- The elements whose keys are below a bound, absent at the right edge. -/
def below (bound : Option Nat) (xs : List α) : List α :=
  xs.filter fun x => bound.all (key x < ·)

/-- The last elements, as many as are asked for. -/
def lastOf : Option Nat → List α → List α
  | none, xs => xs
  | some n, xs => xs.rtake n

def smallest (xs : List α) : Option Nat := (xs.map key).min?

/-- The pages that are read until one is empty. -/
def walkBack (page : Option Nat → List α) : (fuel : Nat) → (bound : Option Nat) → List (List α)
  | 0, _ => []
  | fuel + 1, bound =>
    match smallest key (page bound) with
    | none => []
    | some k => page bound :: walkBack page fuel (some k)

variable {key} {xs pre : List α} {x : α} {bound : Option Nat} {n : Nat}

theorem Increasing.sublist {ys : List α} (h : Increasing key xs) (hs : ys.Sublist xs) :
    Increasing key ys := List.Pairwise.sublist hs h

theorem Increasing.below (h : Increasing key xs) : Increasing key (below key bound xs) :=
  h.sublist filter_sublist

theorem smallest_nil : smallest key ([] : List α) = none := rfl

theorem smallest_cons (h : Increasing key (x :: xs)) : smallest key (x :: xs) = some (key x) := by
  rw [smallest, List.min?_eq_some_iff]
  constructor
  · simp
  · intro k hk
    obtain ⟨y, hy, rfl⟩ := List.mem_map.mp hk
    rcases List.mem_cons.mp hy with rfl | hy
    · exact Nat.le_refl _
    · exact Nat.le_of_lt (rel_of_pairwise_cons h hy)

theorem below_key (h : Increasing key (pre ++ x :: xs)) :
    below key (some (key x)) (pre ++ x :: xs) = pre := by
  obtain ⟨-, htail, hcross⟩ := List.pairwise_append.mp h
  have hpre : pre.filter (fun y => decide (key y < key x)) = pre := by
    rw [filter_eq_self]
    intro y hy
    exact decide_eq_true (hcross y hy x (by simp))
  have hrest : xs.filter (fun y => decide (key y < key x)) = [] := by
    rw [filter_eq_nil_iff]
    intro y hy
    have hlt := rel_of_pairwise_cons htail hy
    simp only [decide_eq_true_eq]
    omega
  simp [below, hpre, hrest]

theorem below_below {k : Nat} (h : bound.all (k < ·)) :
    below key (some k) (below key bound xs) = below key (some k) xs := by
  rw [below, below, below, List.filter_filter]
  refine filter_congr fun y _ => ?_
  cases bound with
  | none => simp
  | some b =>
    simp only [Option.all_some, decide_eq_true_eq] at h
    by_cases hy : key y < k
    · have hb : key y < b := by omega
      simp [hy, hb]
    · simp [hy]

/-- **The pages, put together, are what lies below the first bound.** -/
theorem walkBack_flatten (h : Increasing key xs) (hn : 1 ≤ n) :
    ∀ (fuel : Nat) (bound : Option Nat), (below key bound xs).length < fuel →
      (walkBack key (fun b => (below key b xs).rtake n) fuel bound).reverse.flatten =
        below key bound xs := by
  intro fuel
  induction fuel with
  | zero =>
    intro bound hfuel
    omega
  | succ fuel ih =>
    intro bound hfuel
    have hcut : (below key bound xs).rdrop n ++ (below key bound xs).rtake n =
        below key bound xs := take_append_drop _ _
    have hlen : ((below key bound xs).rtake n).length = min n (below key bound xs).length := by
      rw [List.rtake, length_drop]
      omega
    rw [walkBack]
    cases hpage : (below key bound xs).rtake n with
    | nil =>
      have hnone : below key bound xs = [] := by
        rw [hpage, length_nil] at hlen
        exact eq_nil_of_length_eq_zero (by omega)
      rw [hnone]
      simp [smallest_nil]
    | cons x page =>
      rw [hpage] at hcut hlen
      have hinc : Increasing key ((below key bound xs).rdrop n ++ x :: page) := by
        rw [hcut]
        exact h.below
      have hsmall : smallest key (x :: page) = some (key x) :=
        smallest_cons (hinc.sublist (sublist_append_right _ _))
      have hx : bound.all (key x < ·) := by
        have hmem : x ∈ below key bound xs := by
          rw [← hcut]
          simp
        exact (List.mem_filter.mp hmem).2
      -- what lies below the next bound is what this page has left
      have hnext : below key (some (key x)) xs = (below key bound xs).rdrop n := by
        rw [← below_below hx]
        conv_lhs => rw [← hcut]
        exact below_key hinc
      have hshort : (below key (some (key x)) xs).length < fuel := by
        have hsum := congrArg List.length hcut
        rw [length_append, length_cons] at hsum
        rw [hnext]
        omega
      simp only [hsmall, reverse_cons, flatten_append, flatten_cons, flatten_nil, append_nil]
      rw [ih _ hshort, hnext, hcut]

end SpkEditor.Paging
