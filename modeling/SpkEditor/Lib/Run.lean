import Mathlib.Algebra.Order.Ring.Nat
import Mathlib.Data.List.Induction

/-!
# Runs of a labelled system

A system is a step relation with a label on each step. A run is a sequence of steps;
what every step keeps, every run keeps.
-/

namespace SpkEditor

inductive Run {σ α : Type} (step : σ → α → σ → Prop) : σ → List α → σ → Prop where
  | nil {s : σ} : Run step s [] s
  | cons {s t u : σ} {a : α} {as : List α} : step s a t → Run step t as u → Run step s (a :: as) u

namespace Run

variable {σ α : Type} {step : σ → α → σ → Prop} {s t u : σ} {as bs : List α}

theorem append (h : Run step s as t) (h' : Run step t bs u) : Run step s (as ++ bs) u := by
  induction h with
  | nil => exact h'
  | cons hs _ ih => exact .cons hs (ih h')

theorem split (h : Run step s (as ++ bs) u) : ∃ t, Run step s as t ∧ Run step t bs u := by
  induction as generalizing s with
  | nil => exact ⟨s, .nil, h⟩
  | cons a as ih =>
    cases h with
    | cons hs h =>
      obtain ⟨t, h₁, h₂⟩ := ih h
      exact ⟨t, .cons hs h₁, h₂⟩

theorem snoc {a : α} (h : Run step s as t) (hs : step t a u) : Run step s (as ++ [a]) u :=
  h.append (.cons hs .nil)

/-- **What every step keeps, every run keeps.** The step may use what an invariant of the
system says about the state it starts from. -/
theorem invariant {I P : σ → Prop} (hI : ∀ x a y, I x → step x a y → I y)
    (hP : ∀ x a y, I x → P x → a ∈ as → step x a y → P y) (h : Run step s as t) (hs : I s)
    (hp : P s) : I t ∧ P t := by
  induction h with
  | nil => exact ⟨hs, hp⟩
  | cons hstep _ ih =>
    exact ih (fun x a y hi hp ha => hP x a y hi hp (List.mem_cons_of_mem _ ha))
      (hI _ _ _ hs hstep) (hP _ _ _ hs hp (List.mem_cons_self ..) hstep)

theorem keeps {I : σ → Prop} (hI : ∀ x a y, I x → step x a y → I y) (h : Run step s as t)
    (hs : I s) : I t :=
  (h.invariant hI (fun x a y hi _ _ hstep => hI x a y hi hstep) hs hs).1

theorem functional (hf : ∀ x a y z, step x a y → step x a z → y = z) (h : Run step s as t)
    (h' : Run step s as u) : t = u := by
  induction h with
  | nil =>
    cases h'
    rfl
  | cons hs _ ih =>
    cases h' with
    | cons hs' h' =>
      obtain rfl := hf _ _ _ _ hs hs'
      exact ih h'

/-- **What holds at first and is kept by every step of a run holds along it.** -/
theorem along {P : σ → Prop} (h₀ : P s)
    (hP : ∀ xs a ys x y, as = xs ++ a :: ys → Run step s xs x → step x a y → P x → P y)
    (xs ys : List α) (has : as = xs ++ ys) (h : Run step s xs t) : P t := by
  induction xs using List.reverseRecOn generalizing ys t with
  | nil =>
    cases h
    exact h₀
  | append_singleton xs a ih =>
    obtain ⟨x, h₁, h₂⟩ := h.split
    cases h₂ with
    | cons hs h₂ =>
      cases h₂
      have he : as = xs ++ a :: ys := by simpa using has
      exact hP xs a ys x _ he h₁ hs (ih (a :: ys) he h₁)

end Run

end SpkEditor
