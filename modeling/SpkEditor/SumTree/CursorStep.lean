import SpkEditor.SumTree.CursorSearch

/-!
# Stepping a cursor

`next` and `prev` are searches that want everything.
-/

namespace SpkEditor

open SumTree List

variable {T S D : Type} [Summary S] [Item T S] [Dimension D S] {t : SumTree T S} {c : TreeCursor T S D} {p : Place}

omit [Summary S] in
theorem Unwanted.eq_nil {items : List T} (h : Unwanted (fun _ : S => true) items) : items = [] :=
  List.eq_nil_iff_forall_not_mem.2 fun y hy => nomatch h y hy

theorem Stands.behind_le (hs : Stands t c p) : p.behind t.flat.length ≤ t.flat.length := by
  cases hs with
  | before _ => exact Nat.zero_le _
  | «at» hp hk =>
    have hlen := congrArg List.length hp.flat_eq
    rw [length_append, length_append] at hlen
    rw [Place.behind]
    omega
  | _ => exact Nat.le_refl _

theorem Place.prev_succ {n i : Nat} (h : p.behind n = i + 1) : p.prev n = .at i := by
  cases p with
  | fresh => rw [Place.prev, show n = i + 1 from h, Nat.add_sub_cancel]
  | before => exact nomatch h
  | «at» j =>
    obtain rfl : j = i + 1 := h
    rfl
  | lost => rw [Place.prev, show n = i + 1 from h, Nat.add_sub_cancel]

theorem Place.prev_first {n : Nat} (h : p.behind n = 0) (hn : n ≠ 0) : p.prev n = .before := by
  cases p with
  | fresh => exact absurd h hn
  | before => rfl
  | «at» j =>
    obtain rfl : j = 0 := h
    exact if_neg hn
  | lost => exact absurd h hn

namespace TreeCursor

theorem next_spec (hok : Ok t) (hcap : t.height < STACK_CAPACITY) (hs : Stands t c p) :
    ∃ c', c.next = some c' ∧ Stands t c' (p.next t.flat.length) := by
  by_cases hlost : p = .lost
  · subst hlost
    cases hs
    exact ⟨_, rfl, .lost⟩
  obtain ⟨i, hi, hle⟩ : ∃ i, p.next t.flat.length = .at i ∧ i ≤ t.flat.length := by
    cases p with
    | fresh => exact ⟨0, rfl, Nat.zero_le _⟩
    | before => exact ⟨0, rfl, Nat.zero_le _⟩
    | «at» i => exact ⟨_, rfl, Nat.min_le_right _ _⟩
    | lost => exact absurd rfl hlost
  obtain ⟨c', hc, hends⟩ := searchForward_spec hok hcap Skippable.all hs hi
  refine ⟨c', hc, ?_⟩
  rw [hi]
  rcases hends with ⟨xs, y, ys, heq, hxs, -, hst⟩ | ⟨hun, hst⟩
  · rwa [hxs.eq_nil, append_nil, length_take, Nat.min_eq_left hle] at hst
  · have hlen := congrArg List.length hun.eq_nil
    rw [length_drop, length_nil] at hlen
    rwa [Nat.le_antisymm hle (by omega)]

variable [LawfulSummary S] [LawfulDimension D S]

theorem prev_spec (hok : Ok t) (hcap : t.height < STACK_CAPACITY) (hs : Stands t c p) :
    ∃ c', c.prev = some c' ∧ Stands t c' (p.prev t.flat.length) := by
  rcases hok with rfl | ⟨h, hwf⟩
  · cases hs with
    | fresh => exact ⟨_, rfl, .end⟩
    | before hne => exact ⟨_, rfl, .before hne⟩
    | «at» hp _ => exact absurd hp.root_wf.not_isEmpty (by simp [SumTree.new, SumTree.isEmpty])
    | «end» => exact ⟨_, rfl, .end⟩
    | lost => exact ⟨_, rfl, .end⟩
  obtain ⟨c', hc, hends⟩ := searchBackward_spec hwf hcap Skippable.all hs
  refine ⟨c', hc, ?_⟩
  have hne : t.flat.length ≠ 0 := by simpa using hwf.flat_ne_nil
  have hle := hs.behind_le
  rcases hends with ⟨xs, y, ys, heq, hys, -, hst⟩ | ⟨hun, hst⟩
  · have hlen := congrArg List.length heq
    rw [hys.eq_nil, length_take, Nat.min_eq_left hle, length_append, length_singleton] at hlen
    rwa [Place.prev_succ hlen]
  · have hlen := congrArg List.length hun.eq_nil
    rw [length_take, Nat.min_eq_left hle, length_nil] at hlen
    rwa [Place.prev_first hlen hne]

end TreeCursor

end SpkEditor
