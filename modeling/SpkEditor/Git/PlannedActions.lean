import SpkEditor.Git.Rebase
import Mathlib.Data.List.Perm.Basic

/-!
# The order of planned actions

`git_ui/src/interactive_rebase.rs`, `apply_planned_actions`: a plan is a list of actions, and one
with `insert_after` goes behind the first action before it that has this sha. One loop moves them.
After a move it looks at the same index again, where the action is now that was last before.

If the moved action was in place already, with only actions of the same target in between, the two
of them change places for ever. A move can also come between an action and its target.
-/

namespace SpkEditor.Rebase

open List

inductive TodoAction where
  | pick
  | reword
  | edit
  | squash
  | fixup
  | drop
  | exec
deriving DecidableEq

structure PlannedAction where
  action : TodoAction
  sha : Text
  newMessage : Option Text
  insertAfter : Option Text

/-- The variables of the loop: `ordered` and `i`. -/
abbrev Reordering := List PlannedAction × Nat

/-- `anchor`. -/
def anchorIdx (s : Reordering) : Option Nat := do
  let entry ← s.1[s.2]?
  let targetSha ← entry.insertAfter
  (s.1.take s.2).findIdx? (·.sha = targetSha)

/-- The body of the loop. Past the end nothing happens. -/
def reorderStep (s : Reordering) : Reordering :=
  match s.1[s.2]?, anchorIdx s with
  | none, _ => s
  | some _, none => (s.1, s.2 + 1)
  | some entry, some anchor =>
    if anchor + 1 ≠ s.2 then ((s.1.eraseIdx s.2).insertIdx (anchor + 1) entry, s.2)
    else (s.1, s.2 + 1)

def reorder : Nat → Reordering → Option (List PlannedAction)
  | 0, _ => none
  | fuel + 1, s => if s.2 < s.1.length then reorder fuel (reorderStep s) else some s.1

/-! ## What is to hold -/

/-- `a` is the first action that `x` can go behind, those before it being `front`. -/
def Anchors (front : List PlannedAction) (a x : PlannedAction) : Prop :=
  x.insertAfter = some a.sha ∧ ∀ b ∈ front, b.sha ≠ a.sha

/-- Behind `done`, `x` is where it belongs. -/
def PlacedAfter (done : List PlannedAction) (x : PlannedAction) : Prop :=
  ∀ front a between, done = front ++ a :: between → Anchors front a x →
    ∀ b ∈ between, b.insertAfter = x.insertAfter

def Placed (actions : List PlannedAction) : Prop :=
  ∀ done x rest, actions = done ++ x :: rest → PlacedAfter done x

/-- The loop ends with the same actions, in their places. -/
def Reorders (actions : List PlannedAction) : Prop :=
  ∃ fuel result, reorder fuel (actions, 0) = some result ∧ result.Perm actions ∧ Placed result

/-- What a move behind the last of `upTo` is to leave alone: the actions in between do not all have
the target of the one that is moved, and those with another target stay where they belong. The last
of them is looked at again, and can follow the one that is moved. -/
def CleanMove (upTo between : List PlannedAction) (entry : PlannedAction) : Prop :=
  (∃ e ∈ between, e.insertAfter ≠ entry.insertAfter) ∧
  (∀ e ∈ between, e.insertAfter = entry.insertAfter ∨ ∀ b ∈ upTo, e.insertAfter ≠ some b.sha) ∧
  ∀ e ∈ between.dropLast, e.insertAfter ≠ some entry.sha

/-- If the step moves an action, the move is clean. -/
def Clean (s : Reordering) : Prop :=
  ∀ entry anchor, s.1[s.2]? = some entry → anchorIdx s = some anchor → anchor + 1 ≠ s.2 →
    CleanMove (s.1.take (anchor + 1)) ((s.1.take s.2).drop (anchor + 1)) entry

variable {done front mid rest : List PlannedAction} {a b x y : PlannedAction}

theorem placed_snoc : Placed (done ++ [x]) ↔ Placed done ∧ PlacedAfter done x := by
  constructor
  · intro h
    refine ⟨fun d e r heq => h d e (r ++ [x]) ?_, h done x [] rfl⟩
    rw [heq, append_assoc, cons_append]
  · rintro ⟨hdone, hx⟩ d e r heq
    rcases eq_nil_or_concat r with rfl | ⟨r, z, rfl⟩
    · obtain ⟨rfl, hlast⟩ := append_inj' heq rfl
      obtain rfl := (cons.inj hlast).1
      exact hx
    · rw [concat_eq_append, ← cons_append, ← append_assoc] at heq
      exact hdone d e r (append_inj' heq rfl).1

theorem Anchors.unique {front' between between' : List PlannedAction}
    (h : Anchors front a x) (h' : Anchors front' b x)
    (heq : front ++ a :: between = front' ++ b :: between') :
    front = front' ∧ a = b ∧ between = between' := by
  have hsha : a.sha = b.sha := Option.some.inj (h.1.symm.trans h'.1)
  rcases append_eq_append_iff.mp heq with ⟨m, hfront, htail⟩ | ⟨m, hfront, htail⟩
  · cases m with
    | nil =>
      obtain ⟨rfl, rfl⟩ := cons.inj htail
      exact ⟨(hfront.trans (append_nil _)).symm, rfl, rfl⟩
    | cons c m =>
      obtain ⟨rfl, -⟩ := cons.inj htail
      exact absurd hsha (h'.2 a (hfront ▸ mem_append_right _ mem_cons_self))
  · cases m with
    | nil =>
      obtain ⟨rfl, rfl⟩ := cons.inj htail
      exact ⟨hfront.trans (append_nil _), rfl, rfl⟩
    | cons c m =>
      obtain ⟨rfl, -⟩ := cons.inj htail
      exact absurd hsha.symm (h.2 b (hfront ▸ mem_append_right _ mem_cons_self))

/-- An action behind the one that is moved stays where it belongs. -/
theorem placedAfter_insert (hx : Anchors front a x) (h : PlacedAfter (front ++ a :: mid) y)
    (hother : y.insertAfter = x.insertAfter ∨ ∀ b ∈ front ++ [a], y.insertAfter ≠ some b.sha)
    (hmoved : y.insertAfter ≠ some x.sha) : PlacedAfter (front ++ a :: x :: mid) y := by
  intro p b s heq hb
  have hsplit : (front ++ [a]) ++ x :: mid = p ++ b :: s := by rw [← heq]; simp
  rcases append_eq_append_iff.mp hsplit with ⟨m, hp, htail⟩ | ⟨m, hp, htail⟩
  · cases m with
    | nil => exact absurd ((cons.inj htail).1 ▸ hb.1) hmoved
    | cons c m =>
      -- its target is behind the one that is moved
      obtain ⟨rfl, hmid⟩ := cons.inj htail
      refine h (front ++ a :: m) b s (by rw [hmid]; simp) ⟨hb.1, fun e he => hb.2 e ?_⟩
      rw [hp]
      simp only [mem_append, mem_cons] at he ⊢
      tauto
  · cases m with
    | nil => exact absurd ((cons.inj htail).1 ▸ hb.1) hmoved
    | cons c m =>
      -- its target is the same
      obtain ⟨rfl, hs⟩ := cons.inj htail
      have hsame : y.insertAfter = x.insertAfter :=
        hother.resolve_right fun hnone => hnone b (hp ▸ mem_append_right _ mem_cons_self) hb.1
      have hy : Anchors front a y := ⟨hsame.trans hx.1, hx.2⟩
      obtain ⟨-, -, rfl⟩ := hb.unique hy heq.symm
      intro e he
      rcases mem_cons.mp he with rfl | he
      · exact hsame.symm
      · exact h front a mid rfl hy e he

theorem placed_insert (hx : Anchors front a x) (h : Placed (front ++ a :: mid))
    (hother : ∀ e ∈ mid, e.insertAfter = x.insertAfter ∨
      ∀ b ∈ front ++ [a], e.insertAfter ≠ some b.sha)
    (hmoved : ∀ e ∈ mid, e.insertAfter ≠ some x.sha) : Placed (front ++ a :: x :: mid) := by
  induction mid using reverseRecOn with
  | nil =>
    have hsplit : front ++ [a, x] = (front ++ [a]) ++ [x] := by simp
    rw [hsplit, placed_snoc]
    refine ⟨h, fun p b s heq hb => ?_⟩
    obtain ⟨-, -, rfl⟩ := hb.unique hx heq.symm
    exact nofun
  | append_singleton mid e ih =>
    rw [← cons_append, ← append_assoc, placed_snoc] at h
    rw [← cons_append, ← cons_append, ← append_assoc, placed_snoc]
    have he := mem_append_right mid (mem_singleton_self e)
    exact ⟨ih h.1 (fun e he => hother e (mem_append_left _ he)) fun e he =>
      hmoved e (mem_append_left _ he), placedAfter_insert hx h.2 (hother e he) (hmoved e he)⟩

/-! ## One step -/

/-- The loop is about to look at the first action of `rest`. -/
abbrev lookingAt (done rest : List PlannedAction) : Reordering := (done ++ rest, done.length)

theorem anchorIdx_lookingAt : anchorIdx (lookingAt done (x :: rest)) =
    x.insertAfter.bind fun targetSha => done.findIdx? (·.sha = targetSha) := by
  have hget : (done ++ x :: rest)[done.length]? = some x := by
    rw [getElem?_append_right le_rfl, Nat.sub_self]
    rfl
  unfold anchorIdx
  simp only [hget, take_left]
  rfl

theorem Anchors.anchorIdx (h : Anchors front a x) :
    anchorIdx (lookingAt (front ++ a :: mid) (x :: rest)) = some front.length := by
  have hfront : front.findIdx? (·.sha = a.sha) = none :=
    findIdx?_eq_none_iff.mpr fun b hb => decide_eq_false (h.2 b hb)
  rw [anchorIdx_lookingAt, h.1, Option.bind_some, findIdx?_append, hfront, findIdx?_cons]
  simp

/-- Either `x` has no target before it, or there is a first one. -/
theorem anchor_cases (done : List PlannedAction) (x : PlannedAction) :
    anchorIdx (lookingAt done (x :: rest)) = none ∨
      ∃ front a between, done = front ++ a :: between ∧ Anchors front a x := by
  rw [anchorIdx_lookingAt]
  cases ht : x.insertAfter with
  | none => exact .inl rfl
  | some targetSha =>
    cases hfind : done.find? (·.sha = targetSha) with
    | none =>
      refine .inl (findIdx?_eq_none_iff.mpr fun b hb => ?_)
      exact Bool.not_eq_true _ ▸ find?_eq_none.mp hfind b hb
    | some a =>
      obtain ⟨ha, front, between, rfl, hfront⟩ := find?_eq_some_iff_append.mp hfind
      have hsha : a.sha = targetSha := of_decide_eq_true ha
      refine .inr ⟨front, a, between, rfl, hsha ▸ ht, fun b hb heq => ?_⟩
      simpa [heq, hsha] using hfront b hb

theorem insertIdx_behind (front mid : List PlannedAction) (a x : PlannedAction) :
    (front ++ a :: mid).insertIdx (front.length + 1) x = front ++ a :: x :: mid := by
  induction front with
  | nil => rfl
  | cons b front ih => exact congrArg (b :: ·) ih

/-- An action that is behind its target, or has none, is left there. One with others in between
is moved, and the last of these is looked at next. -/
theorem reorderStep_cases (done : List PlannedAction) (x : PlannedAction)
    (rest : List PlannedAction) :
    (PlacedAfter done x ∧
      reorderStep (lookingAt done (x :: rest)) = lookingAt (done ++ [x]) rest) ∨
    ∃ front a mid y, done = front ++ a :: (mid ++ [y]) ∧ Anchors front a x ∧
      reorderStep (lookingAt done (x :: rest)) =
        lookingAt (front ++ a :: x :: mid) (y :: rest) := by
  have hget : (done ++ x :: rest)[done.length]? = some x := by
    rw [getElem?_append_right le_rfl, Nat.sub_self]
    rfl
  have hnext : (done ++ x :: rest, done.length + 1) = lookingAt (done ++ [x]) rest := by
    simp [lookingAt]
  unfold reorderStep
  simp only [hget]
  rcases @anchor_cases rest done x with hnone | ⟨front, a, between, rfl, ha⟩
  · rw [hnone]
    refine .inl ⟨fun front a between heq ha => ?_, hnext⟩
    subst heq
    rw [ha.anchorIdx] at hnone
    cases hnone
  · rw [ha.anchorIdx]
    rcases eq_nil_or_concat between with rfl | ⟨mid, y, rfl⟩
    · refine .inl ⟨fun front' b between heq hb => ?_, ?_⟩
      · obtain ⟨-, -, rfl⟩ := hb.unique ha heq.symm
        exact nofun
      · dsimp only
        rw [if_neg (by simp)]
        exact hnext
    · refine .inr ⟨front, a, mid, y, by rw [concat_eq_append], ha, ?_⟩
      dsimp only
      rw [if_pos (by simp), eraseIdx_append_of_length_le le_rfl, Nat.sub_self, eraseIdx_cons_zero,
        append_assoc, cons_append, insertIdx_behind]
      simp [lookingAt]

theorem anchorIdx_lt {s : Reordering} {anchor : Nat} (h : anchorIdx s = some anchor) :
    anchor < s.2 := by
  obtain ⟨entry, -, h⟩ := Option.bind_eq_some_iff.mp h
  obtain ⟨targetSha, -, h⟩ := Option.bind_eq_some_iff.mp h
  have := (findIdx?_eq_some_iff_findIdx_eq.mp h).1
  rw [length_take] at this
  omega

theorem reorderStep_perm (s : Reordering) : (reorderStep s).1.Perm s.1 := by
  unfold reorderStep
  split
  · exact Perm.refl _
  · exact Perm.refl _
  next entry anchor hentry hanchor =>
    split
    · obtain ⟨hlt, rfl⟩ := List.getElem?_eq_some_iff.mp hentry
      have := anchorIdx_lt hanchor
      refine (perm_insertIdx _ _ ?_).trans (getElem_cons_eraseIdx_perm hlt)
      rw [length_eraseIdx_of_lt hlt]
      omega
    · exact Perm.refl _

theorem reorder_perm {fuel : Nat} {s : Reordering} {result : List PlannedAction}
    (h : reorder fuel s = some result) : result.Perm s.1 := by
  induction fuel generalizing s with
  | zero => cases h
  | succ fuel ih =>
    unfold reorder at h
    split at h
    · exact (ih h).trans (reorderStep_perm s)
    · cases h
      exact Perm.refl _

theorem clean_moved (ha : Anchors front a x)
    (h : Clean (lookingAt (front ++ a :: (mid ++ [y])) (x :: rest))) :
    CleanMove (front ++ [a]) (mid ++ [y]) x := by
  have hget : (front ++ a :: (mid ++ [y]) ++ x :: rest)[(front ++ a :: (mid ++ [y])).length]? =
      some x := by
    rw [getElem?_append_right le_rfl, Nat.sub_self]
    rfl
  have hclean := h x front.length hget ha.anchorIdx (by simp)
  have hsplit : front ++ a :: (mid ++ [y]) = front ++ [a] ++ (mid ++ [y]) := by simp
  have hlen : front.length + 1 = (front ++ [a]).length := by simp
  simp only [take_left, hsplit] at hclean
  rw [hlen, drop_left, append_assoc, take_left] at hclean
  exact hclean

/-- What a clean move leaves: the one that is looked at next follows the moved one, or is in
place. -/
theorem move_spec (ha : Anchors front a x) (hplaced : Placed (front ++ a :: (mid ++ [y])))
    (hclean : Clean (lookingAt (front ++ a :: (mid ++ [y])) (x :: rest))) :
    Placed (front ++ a :: x :: mid) ∧ (∀ b ∈ front ++ [a], y.insertAfter ≠ some b.sha) ∧
      (y.insertAfter = some x.sha ∨ PlacedAfter (front ++ a :: x :: mid) y) := by
  obtain ⟨⟨e, he, hne⟩, hother, hmoved⟩ := clean_moved ha hclean
  rw [dropLast_concat] at hmoved
  rw [← cons_append, ← append_assoc, placed_snoc] at hplaced
  have hlast := hother y (mem_append_right _ (mem_singleton_self y))
  refine ⟨placed_insert ha hplaced.1 (fun e he => hother e (mem_append_left _ he)) hmoved,
    hlast.resolve_left fun hsame => hne ?_, ?_⟩
  · rcases mem_append.mp he with he | he
    · exact (hplaced.2 front a mid rfl ⟨hsame.trans ha.1, ha.2⟩ e he).trans hsame
    · rw [mem_singleton.mp he, hsame]
  · by_cases hy : y.insertAfter = some x.sha
    · exact .inl hy
    · exact .inr (placedAfter_insert ha hplaced.2 hlast hy)

/-- All steps from `s` on are clean. -/
def CleanRun (s : Reordering) : Prop := ∀ k, Clean (reorderStep^[k] s)

theorem CleanRun.step {s s' : Reordering} (h : CleanRun s) (hstep : reorderStep s = s') :
    CleanRun s' := fun k => by
  have := h (k + 1)
  rwa [Function.iterate_succ_apply, hstep] at this

/-- The loop comes to look at `rest`, with all before it in place. -/
def Arrives (s : Reordering) (rest : List PlannedAction) : Prop :=
  ∃ k done, reorderStep^[k] s = lookingAt done rest ∧ Placed done

theorem Arrives.of_step {s s' : Reordering} (hstep : reorderStep s = s') (h : Arrives s' rest) :
    Arrives s rest := by
  obtain ⟨k, done, hk, hplaced⟩ := h
  exact ⟨k + 1, done, by rw [Function.iterate_succ_apply, hstep, hk], hplaced⟩

/-- Each further move at an index is one place behind the move before it. -/
theorem settle (hclean : CleanRun (lookingAt (front ++ x :: mid) (y :: rest)))
    (hplaced : Placed (front ++ x :: mid)) (hfront : ∀ b ∈ front, y.insertAfter ≠ some b.sha)
    (hy : y.insertAfter = some x.sha ∨ PlacedAfter (front ++ x :: mid) y) :
    Arrives (lookingAt (front ++ x :: mid) (y :: rest)) rest := by
  induction hn : mid.length using Nat.strong_induction_on generalizing front x mid y with
  | h n ih => ?_
  rcases reorderStep_cases (front ++ x :: mid) y rest with
    ⟨hp, hstep⟩ | ⟨front', a, mid', z, heq, ha, hstep⟩
  · exact ⟨1, _, hstep, placed_snoc.mpr ⟨hplaced, hp⟩⟩
  · rcases hy with hy | hy
    · have hx : Anchors front x y := ⟨hy, fun b hb hsha => hfront b hb (hsha ▸ hy)⟩
      obtain ⟨rfl, rfl, rfl⟩ := hx.unique ha heq
      obtain ⟨hplaced, hfront, hz⟩ := move_spec ha hplaced (hclean 0)
      have hsplit : front ++ x :: y :: mid' = front ++ [x] ++ y :: mid' := by simp
      rw [hsplit] at hplaced hz hstep
      exact .of_step hstep (ih mid'.length (by simp [← hn]) (hclean.step hstep) hplaced hfront hz rfl)
    · -- in place already, as all in between have its target
      obtain ⟨⟨e, he, hne⟩, -⟩ := clean_moved ha (heq ▸ hclean 0)
      exact absurd (hy front' a _ heq ha e he) hne

theorem advance (hclean : CleanRun (lookingAt done (x :: rest))) (hplaced : Placed done) :
    Arrives (lookingAt done (x :: rest)) rest := by
  rcases reorderStep_cases done x rest with ⟨hp, hstep⟩ | ⟨front, a, mid, y, rfl, ha, hstep⟩
  · exact ⟨1, _, hstep, placed_snoc.mpr ⟨hplaced, hp⟩⟩
  · obtain ⟨hplaced, hfront, hy⟩ := move_spec ha hplaced (hclean 0)
    have hsplit : front ++ a :: x :: mid = front ++ [a] ++ x :: mid := by simp
    rw [hsplit] at hplaced hy hstep
    exact .of_step hstep (settle (hclean.step hstep) hplaced hfront hy)

theorem Placed.nil : Placed [] := fun done x rest h => by simp at h

theorem reorder_iterate {fuel k : Nat} {s : Reordering} {result : List PlannedAction}
    (h : reorder fuel (reorderStep^[k] s) = some result) : ∃ fuel, reorder fuel s = some result := by
  induction k generalizing s with
  | zero => exact ⟨fuel, h⟩
  | succ k ih =>
    obtain ⟨fuel, h⟩ := ih h
    by_cases hlt : s.2 < s.1.length
    · refine ⟨fuel + 1, ?_⟩
      unfold reorder
      rwa [if_pos hlt]
    · have hend : reorderStep s = s := by
        unfold reorderStep
        rw [getElem?_eq_none (not_lt.mp hlt)]
      exact ⟨fuel, hend ▸ h⟩

theorem reorders_from (hclean : CleanRun (lookingAt done rest)) (hplaced : Placed done) :
    ∃ fuel result, reorder fuel (lookingAt done rest) = some result ∧ Placed result := by
  induction rest generalizing done with
  | nil =>
    refine ⟨1, done, ?_, hplaced⟩
    unfold reorder lookingAt
    rw [append_nil, if_neg (lt_irrefl _)]
  | cons x rest ih =>
    obtain ⟨k, done', hk, hplaced⟩ := advance hclean hplaced
    have hclean' : CleanRun (lookingAt done' rest) := fun j => by
      rw [← hk, ← Function.iterate_add_apply]
      exact hclean _
    obtain ⟨fuel, result, hrun, hresult⟩ := ih hclean' hplaced
    obtain ⟨fuel, hrun⟩ := reorder_iterate (hk ▸ hrun)
    exact ⟨fuel, result, hrun, hresult⟩

def planned (sha : Char) (insertAfter : Option Char) : PlannedAction :=
  ⟨.pick, [sha], none, insertAfter.map ([·])⟩

end SpkEditor.Rebase
