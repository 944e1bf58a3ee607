import Mathlib.Algebra.Order.Ring.Nat

/-!
# Walking over items

A list of items that each have a length. A walk goes on over items as long as their ends pass a test;
where it stops is determined by the position alone (`advance_eq`), whatever the items before it are.
-/

namespace SpkEditor

open List

variable {T : Type}

/-- The items whose ends pass the test, from position `pos` on, and the others. -/
def advance (len : T → Nat) (test : Nat → Bool) : Nat → List T → List T × List T
  | _, [] => ([], [])
  | pos, t :: ts =>
    if test (pos + len t) then
      let r := advance len test (pos + len t) ts
      (t :: r.1, r.2)
    else ([], t :: ts)

/-- A walk stops behind the items `a` if the end of the last of them passes the test, and the end
of the next one does not. -/
theorem advance_eq {len : T → Nat} {test : Nat → Bool}
    (hdown : ∀ i j, i ≤ j → test j = true → test i = true) :
    ∀ {a b : List T} {pos : Nat}, (a = [] ∨ test (pos + (a.map len).sum) = true) →
    (∀ t ∈ b.head?, test (pos + (a.map len).sum + len t) = false) →
    advance len test pos (a ++ b) = (a, b)
  | [], [], _, _, _ => rfl
  | [], t :: b, pos, _, hb => by
      have hstop := hb t rfl
      rw [map_nil, sum_nil, add_zero] at hstop
      rw [nil_append, advance, hstop]
      rfl
  | t :: a, b, pos, ha, hb => by
      rw [map_cons, sum_cons, ← add_assoc] at ha hb
      have hend := ha.resolve_left (cons_ne_nil t a)
      have htest : test (pos + len t) = true := hdown _ _ (Nat.le_add_right _ _) hend
      rw [cons_append, advance, if_pos htest, advance_eq hdown (.inr hend) hb]

end SpkEditor
