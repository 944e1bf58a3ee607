import Mathlib.Algebra.Order.Ring.Nat

/-!
# Loops with fuel

A loop body either fails, goes on with a new state, or is done. `loop` runs it for a
bounded number of turns. A loop that ends within some number of turns ends in the same
way with any larger bound (`loop_mono`), so that proofs count turns one by one
(`loop_next`, `loop_done`) and compare with the bound at the end. A search that may end
in some part of what it goes over, or pass it, is put together from its parts with
`Through`.
-/

namespace SpkEditor

theorem some_pair_inj {α β : Type*} {a a' : α} {b b' : β} (h : some (a, b) = some (a', b')) : a = a' ∧ b = b' :=
  Prod.mk.inj (Option.some.inj h)

theorem map_eq_some_pair {α β γ : Type*} {o : Option α} {f : α → β} {g : α → γ} {b : β} {c : γ}
    (h : o.map (fun a => (f a, g a)) = some (b, c)) : ∃ a, o = some a ∧ f a = b ∧ g a = c := by
  obtain ⟨a, ha, heq⟩ := Option.map_eq_some_iff.mp h
  exact ⟨a, ha, Prod.mk.inj heq⟩

variable {σ ρ : Type}

/-- Turns of a loop, as many as the fuel allows. -/
def loop (body : σ → Option (σ ⊕ ρ)) : Nat → σ → Option ρ
  | 0, _ => none
  | fuel + 1, s =>
    match body s with
    | none => none
    | some (.inl s') => loop body fuel s'
    | some (.inr r) => some r

variable {body : σ → Option (σ ⊕ ρ)}

theorem loop_done {s : σ} {r : ρ} (h : body s = some (.inr r)) (n : Nat) : loop body (n + 1) s = some r := by
  rw [loop, h]

theorem loop_next {s s' : σ} {r : ρ} {n : Nat} (h : body s = some (.inl s')) (hrest : loop body n s' = some r) :
    loop body (n + 1) s = some r := by
  rw [loop, h]
  exact hrest

theorem loop_mono {s : σ} {r : ρ} : ∀ {n m : Nat}, loop body n s = some r → n ≤ m → loop body m s = some r
  | 0, _, h, _ => by simp [loop] at h
  | n + 1, 0, _, hle => by omega
  | n + 1, m + 1, h, hle => by
      rw [loop] at h ⊢
      split at h
      · cases h
      · rename_i s' hs
        exact loop_mono h (by omega)
      · exact h

/-! ## Part of a loop -/

/-- So many turns: the loop is done, with a result as it should be, or it has come to another
state, where what is known of the way there is `passed`. -/
def Through (body : σ → Option (σ ⊕ ρ)) (stop : ρ → Prop) (passed : Prop) (n : Nat) (s s' : σ) : Prop :=
  (∃ r, loop body n s = some r ∧ stop r) ∨
    passed ∧ ∀ m r, loop body m s' = some r → loop body (m + n) s = some r

namespace Through

variable {stop stop' stop'' : ρ → Prop} {passed passed' passed'' : Prop} {s s' s'' : σ} {n m : Nat}

theorem mono (h : Through body stop passed n s s') (hle : n ≤ m) : Through body stop passed m s s' :=
  h.imp (fun ⟨r, hr, hs⟩ => ⟨r, loop_mono hr hle, hs⟩)
    (fun ⟨hp, hgo⟩ => ⟨hp, fun k r hr => loop_mono (hgo k r hr) (Nat.add_le_add_left hle k)⟩)

theorem imp (h : Through body stop passed n s s') (hs : ∀ r, stop r → stop' r) (hp : passed → passed') :
    Through body stop' passed' n s s' :=
  Or.imp (fun ⟨r, hr, h⟩ => ⟨r, hr, hs r h⟩) (fun ⟨h, hgo⟩ => ⟨hp h, hgo⟩) h

theorem done {r : ρ} (h : body s = some (.inr r)) (hs : stop r) : Through body stop passed 1 s s' :=
  .inl ⟨r, loop_done h 0, hs⟩

theorem step (h : body s = some (.inl s')) (hp : passed) : Through body stop passed 1 s s' :=
  .inr ⟨hp, fun _ _ hr => loop_next h hr⟩

theorem turn (h : body s = some (.inl s')) (hs : Through body stop passed n s' s'') :
    Through body stop passed (n + 1) s s'' :=
  Or.imp (fun ⟨r, hr, hstop⟩ => ⟨r, loop_next h hr, hstop⟩)
    (fun ⟨hp, hgo⟩ => ⟨hp, fun k r hr => loop_next h (hgo k r hr)⟩) hs

theorem trans (h : Through body stop passed n s s')
    (h' : passed → Through body stop' passed' m s' s'') (hs : ∀ r, stop r → stop'' r)
    (hs' : passed → ∀ r, stop' r → stop'' r) (hp : passed → passed' → passed'') :
    Through body stop'' passed'' (m + n) s s'' := by
  rcases h with ⟨r, hr, hstop⟩ | ⟨hpassed, hgo⟩
  · exact .inl ⟨r, loop_mono hr (Nat.le_add_left n m), hs r hstop⟩
  · rcases h' hpassed with ⟨r, hr, hstop⟩ | ⟨hpassed', hgo'⟩
    · exact .inl ⟨r, hgo m r hr, hs' hpassed r hstop⟩
    · refine .inr ⟨hp hpassed hpassed', fun k r hr => ?_⟩
      rw [← Nat.add_assoc]
      exact hgo (k + m) r (hgo' k r hr)

theorem finish (h : Through body stop passed n s s')
    (h' : passed → ∃ r, loop body m s' = some r ∧ stop' r) (hs : ∀ r, stop r → stop'' r)
    (hs' : passed → ∀ r, stop' r → stop'' r) : ∃ r, loop body (m + n) s = some r ∧ stop'' r := by
  rcases h with ⟨r, hr, hstop⟩ | ⟨hpassed, hgo⟩
  · exact ⟨r, loop_mono hr (Nat.le_add_left n m), hs r hstop⟩
  · obtain ⟨r, hr, hstop⟩ := h' hpassed
    exact ⟨r, hgo m r hr, hs' hpassed r hstop⟩

end Through

end SpkEditor
