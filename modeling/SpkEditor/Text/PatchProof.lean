import SpkEditor.Text.Patch
import Mathlib.Data.List.TakeWhile

/-!
# Patches describe what changed

`Runs` cuts an old and a new text into stretches that are equal and stretches that were
replaced; the edits of a patch are exactly the replaced ones, in order. `Describes` adds
that the edits are separated and none is empty, so a patch that describes a change lists
its maximal replaced stretches.

The loops that build patches walk both texts from left to right. Each of their steps is
one of two moves: `describes_copy`, the same text on both sides, and `describes_push`, a
replacement.
-/

namespace SpkEditor

open List

variable {β : Type}

namespace Patch

variable {n o : List β} {patch : Patch} {i j : Nat}

/-- The edits cut the old and the new text, from positions `i` and `j` on, into equal
and replaced stretches. -/
inductive Runs : Nat → Nat → Patch → List β → List β → Prop where
  | nil {i j : Nat} {o : List β} : Runs i j [] o o
  | cons {i j : Nat} {p : Patch} {o n : List β} (g x y : List β) :
      Runs (i + g.length + x.length) (j + g.length + y.length) p o n →
      Runs i j
        (⟨⟨i + g.length, i + g.length + x.length⟩, ⟨j + g.length, j + g.length + y.length⟩⟩ :: p)
        (g ++ (x ++ o)) (g ++ (y ++ n))

/-- Edits in order and apart from each other in both texts. -/
def Separated (patch : Patch) : Prop :=
  patch.IsChain (fun a b => a.old.stop < b.old.start ∧ a.new.stop < b.new.start)

/-- **A patch describes a change**: its edits are the replaced stretches. -/
structure Describes (patch : Patch) (o n : List β) : Prop where
  runs : Runs 0 0 patch o n
  separated : patch.Separated
  nonempty : ∀ e ∈ patch, e.isEmpty = false

/-- Replace, edit by edit, what is at an edit's new start by its new text. -/
def applyTo (patch : Patch) (old new : List β) : List β :=
  patch.foldl (fun text e =>
    text.take e.new.start ++ e.new.slice new ++ text.drop (e.new.start + e.oldLen)) old

/-- The same, where what is written is of one kind. -/
inductive RunsOf (fresh : β → Prop) : Nat → Nat → Patch → List β → List β → Prop where
  | nil {i j : Nat} {o : List β} : RunsOf fresh i j [] o o
  | cons {i j : Nat} {p : Patch} {o n : List β} (g x y : List β) : (∀ t ∈ y, fresh t) →
      RunsOf fresh (i + g.length + x.length) (j + g.length + y.length) p o n →
      RunsOf fresh i j
        (⟨⟨i + g.length, i + g.length + x.length⟩, ⟨j + g.length, j + g.length + y.length⟩⟩ :: p)
        (g ++ (x ++ o)) (g ++ (y ++ n))

theorem RunsOf.here {fresh : β → Prop} {i j i' j' : Nat} {p : Patch} {o n : List β} (x : List β) {y : List β}
    (hy : ∀ t ∈ y, fresh t) (hi : i + x.length = i') (hj : j + y.length = j') (h : RunsOf fresh i' j' p o n) :
    RunsOf fresh i j (⟨⟨i, i'⟩, ⟨j, j'⟩⟩ :: p) (x ++ o) (y ++ n) := by
  subst hi hj
  exact .cons [] x y hy h

structure DescribesOf (fresh : β → Prop) (patch : Patch) (o n : List β) : Prop where
  runs : RunsOf fresh 0 0 patch o n
  separated : patch.Separated
  nonempty : ∀ e ∈ patch, e.isEmpty = false

theorem RunsOf.toRuns {fresh : β → Prop} (h : RunsOf fresh i j patch o n) : Runs i j patch o n := by
  induction h with
  | nil => exact .nil
  | cons g x y _ _ ih => exact .cons g x y ih

theorem Runs.toRunsOf (h : Runs i j patch o n) : RunsOf (fun _ => True) i j patch o n := by
  induction h with
  | nil => exact .nil
  | cons g x y _ ih => exact .cons g x y (fun _ _ => trivial) ih

theorem DescribesOf.toDescribes {fresh : β → Prop}
    (h : DescribesOf fresh patch o n) : Describes patch o n :=
  ⟨h.runs.toRuns, h.separated, h.nonempty⟩

theorem Describes.toDescribesOf (h : Describes patch o n) : DescribesOf (fun _ => True) patch o n :=
  ⟨h.runs.toRunsOf, h.separated, h.nonempty⟩

/-! ## Reading a patch -/

theorem runs_applyTo : ∀ {i j : Nat} {patch : Patch} {o n : List β} (front : List β),
    Runs i j patch o n → front.length = j →
    applyTo patch (front ++ o) (front ++ n) = front ++ n := by
  intro i j patch o n front h
  induction h generalizing front with
  | nil => intro _; rfl
  | @cons i j patch o n g x y _ ih =>
    intro hf
    have ih := ih (front ++ (g ++ y)) (by simp [← hf, Nat.add_assoc])
    have hlen : (front ++ g).length = j + g.length := by simp [hf]
    have hlen' : (front ++ (g ++ x)).length = j + g.length + x.length := by
      simp [hf, Nat.add_assoc]
    have htake : (front ++ (g ++ (x ++ o))).take (j + g.length) = front ++ g := by
      rw [← append_assoc, take_left' hlen]
    have hdrop : (front ++ (g ++ (x ++ o))).drop (j + g.length + x.length) = o := by
      rw [← append_assoc g, ← append_assoc, drop_left' hlen']
    have hslice : (front ++ (g ++ (y ++ n))).drop (j + g.length) = y ++ n := by
      rw [← append_assoc, drop_left' hlen]
    simp only [applyTo, foldl_cons, Range.slice, Range.len, Edit.oldLen] at ih ⊢
    rw [htake, show j + g.length + (i + g.length + x.length - (i + g.length)) =
      j + g.length + x.length by omega, hdrop, hslice,
      show j + g.length + y.length - (j + g.length) = y.length by omega, take_left' rfl]
    simpa [append_assoc] using ih

/-- **Applying a patch to the old text gives the new one.** -/
theorem Describes.applyTo_eq (h : Describes patch o n) : patch.applyTo o n = n := by
  simpa using runs_applyTo [] h.runs rfl

theorem Runs.ordered (h : Runs i j patch o n) :
    ∀ e ∈ patch, e.old.start ≤ e.old.stop ∧ e.new.start ≤ e.new.stop := by
  induction h with
  | nil => simp
  | cons g x y _ ih =>
    intro e he
    rcases List.mem_cons.mp he with rfl | he
    · exact ⟨Nat.le_add_right .., Nat.le_add_right ..⟩
    · exact ih e he

theorem Separated.pairwise : ∀ {patch : Patch}, patch.Separated →
    (∀ e ∈ patch, e.old.start ≤ e.old.stop ∧ e.new.start ≤ e.new.stop) →
    patch.Pairwise (fun a b => a.old.stop < b.old.start ∧ a.new.stop < b.new.start)
  | [], _, _ => List.Pairwise.nil
  | [a], _, _ => by simp
  | a :: b :: patch, hs, ho => by
      have hab := List.isChain_cons_cons.mp hs
      have ih := @Separated.pairwise (b :: patch) hab.2 (fun e he => ho e (mem_cons_of_mem _ he))
      have hb := ho b (by simp)
      refine List.pairwise_cons.mpr ⟨fun c hc => ?_, ih⟩
      rcases List.mem_cons.mp hc with rfl | hc
      · exact hab.1
      · have := (List.pairwise_cons.mp ih).1 c hc
        have := hab.1
        omega

/-! ## Building a patch from left to right -/

section

variable {fresh : β → Prop}

theorem describesOf_nil (o : List β) : DescribesOf fresh [] o o :=
  ⟨.nil, isChain_nil, by simp⟩

theorem RunsOf.copy (h : RunsOf fresh i j patch o n)
    (g : List β) : RunsOf fresh i j patch (o ++ g) (n ++ g) := by
  induction h with
  | nil => exact .nil
  | cons g' x y hy _ ih => simpa [append_assoc] using RunsOf.cons g' x y hy ih

theorem describesOf_copy (h : DescribesOf fresh patch o n) (g : List β) :
    DescribesOf fresh patch (o ++ g) (n ++ g) :=
  ⟨h.runs.copy g, h.separated, h.nonempty⟩

/-- The edit that replaces `x` by `y` at the end of an old and a new text. -/
def editAt (i j : Nat) (x y : List β) : Edit := ⟨⟨i, i + x.length⟩, ⟨j, j + y.length⟩⟩

theorem editAt_isEmpty {x y : List β} : (editAt i j x y).isEmpty = true ↔ x = [] ∧ y = [] := by
  simp [editAt, Edit.isEmpty]

theorem pushMaybeEmpty_touching {last edit : Edit} (h : edit.old.start ≤ last.old.stop) :
    pushMaybeEmpty [last] edit =
      [⟨⟨last.old.start, edit.old.stop⟩, ⟨last.new.start, edit.new.stop⟩⟩] := by
  simp only [pushMaybeEmpty]; rw [if_pos h]

theorem pushMaybeEmpty_apart {last edit : Edit} (h : last.old.stop < edit.old.start) :
    pushMaybeEmpty [last] edit = [last, edit] := by
  simp only [pushMaybeEmpty]; rw [if_neg (by omega)]

theorem runsOf_pushMaybeEmpty
    (h : RunsOf fresh i j patch o n) (x : List β) {y : List β} (hy : ∀ t ∈ y, fresh t) :
    RunsOf fresh i j (patch.pushMaybeEmpty (editAt (i + o.length) (j + n.length) x y))
      (o ++ x) (n ++ y) := by
  induction h with
  | @nil i j o => simpa [editAt, pushMaybeEmpty] using RunsOf.cons (i := i) (j := j) o x y hy (.nil (o := []))
  | @cons i j patch o n g x' y' hy' h ih =>
    have ho : i + (g ++ (x' ++ o)).length = i + g.length + x'.length + o.length := by
      simp; omega
    have hn : j + (g ++ (y' ++ n)).length = j + g.length + y'.length + n.length := by
      simp; omega
    rw [ho, hn]
    cases patch with
    | nil =>
      cases h
      cases o with
      | nil =>
        -- nothing was copied since the last edit: the two become one
        have := RunsOf.cons (i := i) (j := j) g (x' ++ x) (y' ++ y)
          (List.forall_mem_append.mpr ⟨hy', hy⟩) (RunsOf.nil (o := []))
        rw [pushMaybeEmpty_touching (by simp [editAt])]
        simpa [editAt, Nat.add_assoc, append_assoc] using this
      | cons b o =>
        have := RunsOf.cons g x' y' hy' ih
        rw [pushMaybeEmpty_apart (by simp [editAt])]
        simpa [pushMaybeEmpty, append_assoc] using this
    | cons e patch =>
      have := RunsOf.cons g x' y' hy' ih
      simpa [pushMaybeEmpty, append_assoc] using this

theorem pushMaybeEmpty_head {edit : Edit} {a : Edit} : (pushMaybeEmpty (a :: patch) edit).head? =
      some (if patch = [] ∧ edit.old.start ≤ a.old.stop then
        ⟨⟨a.old.start, edit.old.stop⟩, ⟨a.new.start, edit.new.stop⟩⟩ else a) := by
  cases patch with
  | nil =>
    by_cases h : edit.old.start ≤ a.old.stop
    · simp [pushMaybeEmpty, h]
    · simp [pushMaybeEmpty, h]
  | cons b patch => simp [pushMaybeEmpty]

theorem separated_pushMaybeEmpty
    (h : RunsOf fresh i j patch o n) (hs : patch.Separated) (x y : List β) :
    (patch.pushMaybeEmpty (editAt (i + o.length) (j + n.length) x y)).Separated := by
  induction h with
  | nil => simp [pushMaybeEmpty, Separated]
  | @cons i j patch o n g x' y' hy' h ih =>
    have ho : i + (g ++ (x' ++ o)).length = i + g.length + x'.length + o.length := by
      simp; omega
    have hn : j + (g ++ (y' ++ n)).length = j + g.length + y'.length + n.length := by
      simp; omega
    rw [ho, hn]
    cases patch with
    | nil =>
      cases h
      cases o with
      | nil =>
        rw [pushMaybeEmpty_touching (by simp [editAt])]
        exact isChain_singleton _
      | cons b o =>
        rw [pushMaybeEmpty_apart (by simp [editAt])]
        refine List.isChain_cons_cons.mpr ⟨⟨?_, ?_⟩, isChain_singleton _⟩
        · simp [editAt]
        · simp [editAt]
    | cons e patch =>
      obtain ⟨hsep, hrest⟩ := List.isChain_cons_cons.mp hs
      have ih := ih hrest
      refine List.IsChain.cons ih ?_
      intro b hb
      rw [pushMaybeEmpty_head] at hb
      simp only [Option.mem_def, Option.some.injEq] at hb
      subst hb
      split <;> exact hsep

theorem nonempty_pushMaybeEmpty {edit : Edit}
    (hp : ∀ e ∈ patch, e.isEmpty = false) (hs : ∀ e ∈ patch, e.old.start ≤ e.old.stop ∧
      e.new.start ≤ e.new.stop ∧ e.old.stop ≤ edit.old.start ∧ e.new.stop ≤ edit.new.start)
    (he : edit.isEmpty = false) (hw : edit.old.start ≤ edit.old.stop ∧
      edit.new.start ≤ edit.new.stop) :
    ∀ e ∈ patch.pushMaybeEmpty edit, e.isEmpty = false := by
  induction patch with
  | nil => simpa [pushMaybeEmpty] using he
  | cons a patch ih =>
    cases patch with
    | nil =>
      intro e hmem
      simp only [pushMaybeEmpty] at hmem
      split at hmem
      · rw [mem_singleton] at hmem
        subst hmem
        obtain ⟨h1, h2, h3, h4⟩ := hs a (by simp)
        have hne := hp a (by simp)
        simp only [Edit.isEmpty, Bool.and_eq_false_iff, beq_eq_false_iff_ne, ne_eq] at hne ⊢
        omega
      · simp only [mem_cons, not_mem_nil, or_false] at hmem
        rcases hmem with rfl | rfl
        · exact hp e (by simp)
        · exact he
    | cons b patch =>
      intro e hmem
      simp only [pushMaybeEmpty, mem_cons] at hmem
      rcases hmem with rfl | hmem
      · exact hp e (by simp)
      · exact ih (fun e he => hp e (mem_cons_of_mem _ he))
          (fun e he => hs e (mem_cons_of_mem _ he)) e hmem

theorem RunsOf.bounds (h : RunsOf fresh i j patch o n) :
    ∀ e ∈ patch, e.old.start ≤ e.old.stop ∧ e.new.start ≤ e.new.stop ∧
      e.old.stop ≤ i + o.length ∧ e.new.stop ≤ j + n.length := by
  induction h with
  | nil => simp
  | cons g x y _ _ ih =>
    intro e he
    simp only [length_append]
    rcases List.mem_cons.mp he with rfl | he
    · dsimp only; omega
    · have := ih e he; omega

theorem describesOf_push (h : DescribesOf fresh patch o n) (x : List β)
    {y : List β} (hy : ∀ t ∈ y, fresh t) :
    DescribesOf fresh (patch.push (editAt o.length n.length x y)) (o ++ x) (n ++ y) := by
  unfold push
  by_cases he : (editAt o.length n.length x y).isEmpty = true
  · obtain ⟨rfl, rfl⟩ := editAt_isEmpty.mp he
    rw [if_pos he]
    simpa using h
  · rw [if_neg he]
    have hr := runsOf_pushMaybeEmpty h.runs x hy
    have hs := separated_pushMaybeEmpty h.runs h.separated x y
    simp only [Nat.zero_add] at hr hs
    refine ⟨hr, hs, nonempty_pushMaybeEmpty h.nonempty (fun e hmem => ?_) (by simpa using he)
      ⟨by simp [editAt], by simp [editAt]⟩⟩
    have := h.runs.bounds e hmem
    simpa [editAt] using this

end

theorem describes_nil (o : List β) : Describes [] o o :=
  ⟨.nil, isChain_nil, by simp⟩

theorem describes_copy (h : Describes patch o n) (g : List β) : Describes patch (o ++ g) (n ++ g) :=
  (describesOf_copy h.toDescribesOf g).toDescribes

theorem describes_push (h : Describes patch o n) (x y : List β) :
    Describes (patch.push (editAt o.length n.length x y)) (o ++ x) (n ++ y) :=
  (describesOf_push h.toDescribesOf x fun _ _ => trivial).toDescribes

end Patch

end SpkEditor
