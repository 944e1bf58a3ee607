import SpkEditor.Text.PatchProof
import Mathlib.Algebra.Order.BigOperators.Group.List
import Mathlib.Algebra.Order.Ring.Nat

/-!
# Composing patches

The loop of `compose` walks two patches at once. It makes the two moves that every loop over
a patch makes (`describesOf_copy`, `describesOf_push`), with the text in the middle cut where
both patches are; no subtraction of it goes below zero, and every turn takes an edit off one
of the two (`composes_loop`).

For two patches as such, without texts, well-formed is what the edits of a described change
are: `WellFormed.describes` finds texts for them, all of it new that is written.
-/

namespace SpkEditor

open List Option

variable {β : Type}

namespace Patch

variable {next : ComposeNextChecked} {a b c n o : List β} {composed newEdits oldEdits patch : Patch}
  {fresh : β → Prop} {fuel i j m : Nat}

theorem checkedSub_add_left (a b : Nat) : checkedSub (a + b) a = some b := by
  rw [checkedSub, if_pos (Nat.le_add_right a b), Nat.add_sub_cancel_left]

theorem checkedSub_eq_some {a b d : Nat} (h : checkedSub a b = some d) : d = a - b := by
  rw [checkedSub] at h
  split at h
  · exact (some.inj h).symm
  · cases h

theorem exists_append_of_length_le {d : List β} (h : a ++ b = c ++ d)
    (hle : a.length ≤ c.length) : ∃ z, c = a ++ z ∧ b = z ++ d := by
  obtain ⟨z, rfl⟩ := prefix_of_prefix_length_le ⟨b, h⟩ (prefix_append c d) hle
  exact ⟨z, rfl, append_cancel_left (h.trans (append_assoc ..))⟩

/-- A stretch that ends before the first edit is the same in both texts. -/
theorem RunsOf.cut {k : Nat} (h : RunsOf fresh i j patch o n)
    (hk : ∀ e ∈ patch.head?, i + k ≤ e.old.start ∨ j + k ≤ e.new.start) :
    o.take k = n.take k ∧ RunsOf fresh (i + k) (j + k) patch (o.drop k) (n.drop k) := by
  cases h with
  | nil => exact ⟨rfl, .nil⟩
  | @cons _ _ patch o n g x y hy h =>
    have hle : k ≤ g.length := by
      have := hk _ rfl
      dsimp only at this
      omega
    have hi : i + k + (g.drop k).length = i + g.length := by rw [length_drop]; omega
    have hj : j + k + (g.drop k).length = j + g.length := by rw [length_drop]; omega
    have := RunsOf.cons (i := i + k) (j := j + k) (g.drop k) x y hy (by rw [hi, hj]; exact h)
    rw [hi, hj] at this
    simp only [take_append_of_le_length hle, drop_append_of_le_length hle]
    exact ⟨trivial, this⟩

theorem RunsOf.skip {g : List β} (h : RunsOf fresh i j patch (g ++ o) n)
    (hg : ∀ e ∈ patch.head?, i + g.length ≤ e.old.start) :
    ∃ n', n = g ++ n' ∧ RunsOf fresh (i + g.length) (j + g.length) patch o n' := by
  obtain ⟨htake, hrest⟩ := h.cut fun e he => .inl (hg e he)
  rw [take_left] at htake
  rw [drop_left] at hrest
  exact ⟨n.drop g.length, (take_append_drop g.length n).symm.trans (by rw [← htake]), hrest⟩

theorem RunsOf.skipNew {g : List β}
    (h : RunsOf fresh i j patch o (g ++ n)) (hg : ∀ e ∈ patch.head?, j + g.length ≤ e.new.start) :
    ∃ o', o = g ++ o' ∧ RunsOf fresh (i + g.length) (j + g.length) patch o' n := by
  obtain ⟨htake, hrest⟩ := h.cut fun e he => .inr (hg e he)
  rw [take_left] at htake
  rw [drop_left] at hrest
  exact ⟨o.drop g.length, (take_append_drop g.length o).symm.trans (by rw [htake]), hrest⟩

/--
What a round of `compose` promises. So far `composed` describes `o` turning into
`n`; what is left of the first patch turns `a` into `b` and what is left of the
second turns `b` into `c`, both starting at the same place `m` of the text in the
middle.
-/
def Composes (fresh : β → Prop) (fuel : Nat) (next : ComposeNextChecked) : Prop :=
  ∀ (oldEdits newEdits composed : Patch) (o n a b c : List β) (m : Nat),
    oldEdits.length + newEdits.length ≤ fuel →
    RunsOf fresh o.length m oldEdits a b → RunsOf fresh m n.length newEdits b c →
    DescribesOf fresh composed o n →
    ∃ r, next oldEdits newEdits composed o.length n.length = some r ∧
      DescribesOf fresh r (o ++ a) (n ++ c)

section

variable (hnext : Composes fresh fuel next)
include hnext

theorem Composes.emit (x : List β)
    {y : List β} (hy : ∀ t ∈ y, fresh t) (hfuel : oldEdits.length + newEdits.length ≤ fuel)
    (ho : RunsOf fresh (o.length + x.length) m oldEdits a b)
    (hn : RunsOf fresh m (n.length + y.length) newEdits b c) (hc : DescribesOf fresh composed o n) :
    ∃ r, next oldEdits newEdits
        (composed.push ⟨⟨o.length, o.length + x.length⟩, ⟨n.length, n.length + y.length⟩⟩)
        (o.length + x.length) (n.length + y.length) = some r ∧
      DescribesOf fresh r (o ++ (x ++ a)) (n ++ (y ++ c)) := by
  have := hnext oldEdits newEdits _ (o ++ x) (n ++ y) a b c m hfuel (by simpa using ho)
    (by simpa using hn) (describesOf_push hc x hy)
  simpa [editAt, append_assoc] using this

theorem composes_old {oldEdit : Edit} (hfuel : oldEdits.length + newEdits.length ≤ fuel)
    (ho : RunsOf fresh o.length m (oldEdit :: oldEdits) a b) (hn : RunsOf fresh m n.length newEdits b c)
    (hc : DescribesOf fresh composed o n) (hlt : ∀ e ∈ newEdits.head?, oldEdit.new.stop < e.old.start) :
    ∃ r, composeOldChecked next oldEdit oldEdits newEdits composed o.length n.length = some r ∧
      DescribesOf fresh r (o ++ a) (n ++ c) := by
  cases ho with
  | @cons _ _ _ a b g x y hy ho =>
    rw [← append_assoc] at hn
    obtain ⟨c, rfl, hn'⟩ := hn.skip (fun e he => by
      have := hlt e he
      simp only [length_append]
      dsimp only at this
      omega)
    have := hnext.emit (o := o ++ g) (n := n ++ g) x hy hfuel
      (by simpa [add_assoc] using ho) (by simpa [add_assoc] using hn')
      (describesOf_copy hc g)
    simp only [composeOldChecked, oldLenChecked, newLenChecked, checkedSub_add_left, bind_eq_bind,
      bind_some]
    simpa [append_assoc, add_assoc] using this

theorem composes_new {newEdit : Edit} (hfuel : oldEdits.length + newEdits.length ≤ fuel)
    (ho : RunsOf fresh o.length m oldEdits a b) (hn : RunsOf fresh m n.length (newEdit :: newEdits) b c)
    (hc : DescribesOf fresh composed o n) (hlt : ∀ e ∈ oldEdits.head?, newEdit.old.stop < e.new.start) :
    ∃ r, composeNewChecked next newEdit oldEdits newEdits composed o.length n.length = some r ∧
      DescribesOf fresh r (o ++ a) (n ++ c) := by
  cases hn with
  | @cons _ _ _ b c g x y hy hn =>
    rw [← append_assoc] at ho
    obtain ⟨a, rfl, ho'⟩ := ho.skipNew (fun e he => by
      have := hlt e he
      simp only [length_append]
      dsimp only at this
      omega)
    have := hnext.emit (o := o ++ g) (n := n ++ g) x hy hfuel
      (by simpa [add_assoc] using ho') (by simpa [add_assoc] using hn)
      (describesOf_copy hc g)
    simp only [composeNewChecked, oldLenChecked, newLenChecked, checkedSub_add_left, bind_eq_bind,
      bind_some]
    simpa [append_assoc, add_assoc] using this

/-- Both edits start here; the text in the middle is what the first one wrote and what
the second one replaces. -/
theorem composes_meet {b' : List β}
    (x₁ : List β) {y₁ : List β} (hy₁ : ∀ t ∈ y₁, fresh t) (x₂ : List β) {y₂ : List β}
    (hy₂ : ∀ t ∈ y₂, fresh t) (hfuel : oldEdits.length + newEdits.length + 1 ≤ fuel)
    (hmid : y₁ ++ b = x₂ ++ b') (ho : RunsOf fresh (o.length + x₁.length) (m + y₁.length) oldEdits a b)
    (hn : RunsOf fresh (m + x₂.length) (n.length + y₂.length) newEdits b' c)
    (hc : DescribesOf fresh composed o n) :
    ∃ r, composeMeetChecked next (editAt o.length m x₁ y₁) (editAt m n.length x₂ y₂) oldEdits
        newEdits composed o.length n.length = some r ∧
      DescribesOf fresh r (o ++ (x₁ ++ a)) (n ++ (y₂ ++ c)) := by
  unfold composeMeetChecked
  simp only [oldLenChecked, newLenChecked, editAt, checkedSub_add_left, bind_eq_bind, bind_some]
  by_cases hlt : m + x₂.length < m + y₁.length
  · -- the second edit ends first: what it replaced is some of what the first one wrote
    rw [if_pos hlt]
    obtain ⟨y, rfl, rfl⟩ := exists_append_of_length_le hmid.symm (by omega)
    have htake : (x₁.take x₂.length).length = min x₁.length x₂.length := by
      rw [length_take]; omega
    have hsum : (x₁.take x₂.length).length + (x₁.drop x₂.length).length = x₁.length := by
      rw [← length_append, take_append_drop]
    have hold : RunsOf fresh (o.length + (x₁.take x₂.length).length) (m + x₂.length)
        (⟨⟨o.length + (x₁.take x₂.length).length, o.length + x₁.length⟩,
          ⟨m + x₂.length, m + (x₂ ++ y).length⟩⟩ :: oldEdits)
        (x₁.drop x₂.length ++ a) (y ++ b) := .here _ (List.forall_mem_append.mp hy₁).2 (by rw [add_assoc, hsum])
        (by simp [add_assoc]) ho
    have := hnext.emit (x₁.take x₂.length) hy₂ (by simp; omega) hold hn hc
    rw [← append_assoc (x₁.take x₂.length), take_append_drop, htake] at this
    exact this
  · -- the first edit ends first: what it wrote is some of what the second one replaced
    rw [if_neg hlt]
    obtain ⟨x, rfl, rfl⟩ := exists_append_of_length_le hmid (by omega)
    have htake : (y₂.take y₁.length).length = min y₁.length y₂.length := by
      rw [length_take]
    have hsum : (y₂.take y₁.length).length + (y₂.drop y₁.length).length = y₂.length := by
      rw [← length_append, take_append_drop]
    have hnew : RunsOf fresh (m + y₁.length) (n.length + (y₂.take y₁.length).length)
        (⟨⟨m + y₁.length, m + (y₁ ++ x).length⟩,
          ⟨n.length + (y₂.take y₁.length).length, n.length + y₂.length⟩⟩ :: newEdits)
        (x ++ b') (y₂.drop y₁.length ++ c) := .here _ (fun t ht => hy₂ t (mem_of_mem_drop ht))
        (by simp [add_assoc]) (by rw [add_assoc, hsum]) hn
    have := hnext.emit x₁ (fun t ht => hy₂ t (mem_of_mem_take ht)) (by simp; omega) ho hnew hc
    rw [← append_assoc (y₂.take y₁.length), take_append_drop, htake] at this
    exact this

/-- The first edit that is left writes past the start of the second: emit what stands
before the meeting point, then meet. -/
theorem composes_catchOld {b' : List β}
    (g x₁ : List β) {y₁ w : List β} (hy₁ : ∀ t ∈ w ++ y₁, fresh t) (x₂ : List β) {y₂ : List β}
    (hy₂ : ∀ t ∈ y₂, fresh t) (hfuel : oldEdits.length + newEdits.length + 1 ≤ fuel)
    (hmid : y₁ ++ b = x₂ ++ b')
    (ho : RunsOf fresh (o.length + g.length + x₁.length) (m + g.length + (w ++ y₁).length) oldEdits a b)
    (hn : RunsOf fresh (m + (g ++ w).length + x₂.length) (n.length + (g ++ w).length + y₂.length) newEdits
      b' c) (hc : DescribesOf fresh composed o n) :
    ∃ r, composeMeetChecked next
        ⟨⟨min (o.length + g.length + w.length) (o.length + g.length + x₁.length),
            o.length + g.length + x₁.length⟩,
          ⟨m + g.length + w.length, m + g.length + (w ++ y₁).length⟩⟩
        ⟨⟨m + (g ++ w).length, m + (g ++ w).length + x₂.length⟩,
          ⟨n.length + (g ++ w).length, n.length + (g ++ w).length + y₂.length⟩⟩
        oldEdits newEdits
        (composed.push ⟨⟨o.length + g.length,
            min (o.length + g.length + w.length) (o.length + g.length + x₁.length)⟩,
          ⟨n.length + g.length, n.length + g.length + w.length⟩⟩)
        (min (o.length + g.length + w.length) (o.length + g.length + x₁.length))
        (n.length + g.length + w.length) = some r ∧
      DescribesOf fresh r (o ++ (g ++ (x₁ ++ a))) (n ++ (g ++ (w ++ (y₂ ++ c)))) := by
  have htake : o.length + g.length + (x₁.take w.length).length =
      min (o.length + g.length + w.length) (o.length + g.length + x₁.length) := by
    rw [length_take]; omega
  have hsum : (x₁.take w.length).length + (x₁.drop w.length).length = x₁.length := by
    rw [← length_append, take_append_drop]
  have hpush := describesOf_push (describesOf_copy hc g) (x₁.take w.length)
    (List.forall_mem_append.mp hy₁).1
  have := composes_meet hnext (o := o ++ g ++ x₁.take w.length) (n := n ++ g ++ w)
    (m := m + (g ++ w).length) (x₁.drop w.length) (List.forall_mem_append.mp hy₁).2 x₂ hy₂ hfuel hmid
    (by
      simp only [length_append] at ho ⊢
      rw [add_assoc (o.length + g.length), hsum]
      simpa [add_assoc] using ho)
    (by simpa [add_assoc] using hn) hpush
  simp only [editAt, length_append, append_assoc, ← add_assoc] at this ⊢
  rw [add_assoc (o.length + g.length) _ (x₁.drop w.length).length, hsum] at this
  rw [← append_assoc (x₁.take w.length), take_append_drop] at this
  simpa [add_assoc] using this

/-- The second edit that is left starts before the first: emit what stands before the
meeting point, then meet. -/
theorem composes_catchNew {b' : List β}
    (g x₁ : List β) {y₁ : List β} (hy₁ : ∀ t ∈ y₁, fresh t) (w x₂ : List β) {y₂ : List β}
    (hy₂ : ∀ t ∈ y₂, fresh t) (hfuel : oldEdits.length + newEdits.length + 1 ≤ fuel)
    (hmid : y₁ ++ b = x₂ ++ b')
    (ho : RunsOf fresh (o.length + (g ++ w).length + x₁.length) (m + (g ++ w).length + y₁.length) oldEdits
      a b)
    (hn : RunsOf fresh (m + g.length + (w ++ x₂).length) (n.length + g.length + y₂.length) newEdits b' c)
    (hc : DescribesOf fresh composed o n) :
    ∃ r, composeMeetChecked next
        ⟨⟨o.length + (g ++ w).length, o.length + (g ++ w).length + x₁.length⟩,
          ⟨m + (g ++ w).length, m + (g ++ w).length + y₁.length⟩⟩
        ⟨⟨m + g.length + w.length, m + g.length + (w ++ x₂).length⟩,
          ⟨min (n.length + g.length + w.length) (n.length + g.length + y₂.length),
            n.length + g.length + y₂.length⟩⟩
        oldEdits newEdits
        (composed.push ⟨⟨o.length + g.length, o.length + g.length + w.length⟩, ⟨n.length + g.length,
            min (n.length + g.length + w.length) (n.length + g.length + y₂.length)⟩⟩)
        (o.length + g.length + w.length)
        (min (n.length + g.length + w.length) (n.length + g.length + y₂.length)) = some r ∧
      DescribesOf fresh r (o ++ (g ++ (w ++ (x₁ ++ a)))) (n ++ (g ++ (y₂ ++ c))) := by
  have htake : n.length + g.length + (y₂.take w.length).length =
      min (n.length + g.length + w.length) (n.length + g.length + y₂.length) := by
    rw [length_take]; omega
  have hsum : (y₂.take w.length).length + (y₂.drop w.length).length = y₂.length := by
    rw [← length_append, take_append_drop]
  have hpush := describesOf_push (describesOf_copy hc g) w
    (fun t ht => hy₂ t (mem_of_mem_take ht) : ∀ t ∈ y₂.take w.length, fresh t)
  have := composes_meet hnext (o := o ++ g ++ w) (n := n ++ g ++ y₂.take w.length)
    (m := m + (g ++ w).length) x₁ hy₁ x₂
    (fun t ht => hy₂ t (mem_of_mem_drop ht) : ∀ t ∈ y₂.drop w.length, fresh t) hfuel hmid
    (by simpa [add_assoc] using ho)
    (by
      simp only [length_append] at hn ⊢
      rw [add_assoc (n.length + g.length), hsum]
      simpa [add_assoc] using hn) hpush
  simp only [editAt, length_append, append_assoc, ← add_assoc] at this ⊢
  rw [add_assoc (n.length + g.length) _ (y₂.drop w.length).length, hsum] at this
  rw [← append_assoc (y₂.take w.length), take_append_drop] at this
  simpa [add_assoc] using this

end

theorem composes_loop : ∀ fuel, Composes fresh fuel (composeLoopChecked fuel)
  | 0 => by
      intro oldEdits newEdits composed o n a b c m hfuel ho hn hc
      have h1 : oldEdits = [] := List.length_eq_zero_iff.mp (by omega)
      have h2 : newEdits = [] := List.length_eq_zero_iff.mp (by omega)
      subst h1 h2
      cases ho
      cases hn
      exact ⟨composed, by rw [composeLoopChecked], describesOf_copy hc _⟩
  | fuel + 1 => by
      intro oldEdits newEdits composed o n a b c m hfuel ho hn hc
      have ih := composes_loop fuel
      match oldEdits, newEdits with
      | [], [] =>
        cases ho
        cases hn
        exact ⟨composed, by rw [composeLoopChecked], describesOf_copy hc _⟩
      | oldEdit :: oldEdits, [] =>
        rw [composeLoopChecked]
        exact composes_old ih (by simpa using hfuel) ho hn hc (by simp)
      | [], newEdit :: newEdits =>
        rw [composeLoopChecked]
        exact composes_new ih (by simpa using hfuel) ho hn hc (by simp)
      | oldEdit :: oldEdits, newEdit :: newEdits =>
        simp only [length_cons] at hfuel
        simp only [composeLoopChecked]
        by_cases h1 : oldEdit.new.stop < newEdit.old.start
        · rw [if_pos h1]
          exact composes_old ih (by simp; omega) ho hn hc (by simpa using h1)
        rw [if_neg h1]
        by_cases h2 : newEdit.old.stop < oldEdit.new.start
        · rw [if_pos h2]
          exact composes_new ih (by simp; omega) ho hn hc (by simpa using h2)
        rw [if_neg h2]
        -- the two edits touch in the text in the middle
        generalize hb : b = bn at hn
        cases ho with
        | @cons _ _ _ a b₁ g₁ x₁ y₁ hy₁ ho =>
        cases hn with
        | @cons _ _ _ b₂ c g₂ x₂ y₂ hy₂ hn =>
        dsimp only at h1 h2 ⊢
        by_cases h3 : m + g₁.length < m + g₂.length
        · rw [if_pos h3]
          obtain ⟨w, rfl, hw⟩ := exists_append_of_length_le hb (by omega)
          obtain ⟨y, rfl, hy⟩ := exists_append_of_length_le hw.symm
            (by rw [length_append] at h1; omega)
          have := composes_catchOld ih g₁ x₁ hy₁ x₂ hy₂ (by omega) hy.symm ho hn hc
          have hover : checkedSub (m + (g₁ ++ w).length) (m + g₁.length) = some w.length := by
            rw [length_append, ← add_assoc, checkedSub_add_left]
          rw [checkedSub_add_left, hover]
          simpa [append_assoc] using this
        · rw [if_neg h3]
          obtain ⟨w, rfl, hw⟩ := exists_append_of_length_le hb.symm (by omega)
          obtain ⟨x, rfl, hx⟩ := exists_append_of_length_le hw.symm
            (by rw [length_append] at h2; omega)
          have := composes_catchNew ih g₂ x₁ hy₁ w x hy₂ (by omega) hx ho hn hc
          have hover : checkedSub (m + (g₂ ++ w).length) (m + g₂.length) = some w.length := by
            rw [length_append, ← add_assoc, checkedSub_add_left]
          rw [checkedSub_add_left, hover]
          simpa [append_assoc] using this

/-- What is left to do is the same with and without the checks. -/
def Agrees (checked : ComposeNextChecked) (next : ComposeNext) : Prop :=
  ∀ {oldEdits newEdits composed : Patch} {oldStart newStart : Nat} {r : Patch},
    checked oldEdits newEdits composed oldStart newStart = some r →
    next oldEdits newEdits composed oldStart newStart = r

section

variable {checked : ComposeNextChecked} {next : ComposeNext} (h : Agrees checked next)
include h

theorem Agrees.composeOld {oldEdit : Edit} {r : Patch} {oldStart newStart : Nat}
    (hr : composeOldChecked checked oldEdit oldEdits newEdits composed oldStart newStart = some r) :
    composeOld next oldEdit oldEdits newEdits composed oldStart newStart = r := by
  simp only [composeOldChecked, bind_eq_bind, bind_eq_some_iff] at hr
  obtain ⟨catchup, hcatchup, oldLen, hold, newLen, hnew, hr⟩ := hr
  rw [checkedSub_eq_some hcatchup, checkedSub_eq_some hold, checkedSub_eq_some hnew] at hr
  exact h hr

theorem Agrees.composeNew {newEdit : Edit} {r : Patch} {oldStart newStart : Nat}
    (hr : composeNewChecked checked newEdit oldEdits newEdits composed oldStart newStart = some r) :
    composeNew next newEdit oldEdits newEdits composed oldStart newStart = r := by
  simp only [composeNewChecked, bind_eq_bind, bind_eq_some_iff] at hr
  obtain ⟨catchup, hcatchup, oldLen, hold, newLen, hnew, hr⟩ := hr
  rw [checkedSub_eq_some hcatchup, checkedSub_eq_some hold, checkedSub_eq_some hnew] at hr
  exact h hr

theorem Agrees.composeMeet {oldEdit newEdit : Edit} {r : Patch} {oldStart newStart : Nat}
    (hr : composeMeetChecked checked oldEdit newEdit oldEdits newEdits composed oldStart newStart = some r) :
    composeMeet next oldEdit newEdit oldEdits newEdits composed oldStart newStart = r := by
  rw [composeMeetChecked] at hr
  rw [Patch.composeMeet]
  split at hr
  · rename_i hlt
    simp only [bind_eq_bind, bind_eq_some_iff] at hr
    obtain ⟨oldLen, hold, oldLen', hold', newLen', hnew', hr⟩ := hr
    rw [checkedSub_eq_some hold, checkedSub_eq_some hold', checkedSub_eq_some hnew'] at hr
    rw [if_pos hlt]
    exact h hr
  · rename_i hlt
    simp only [bind_eq_bind, bind_eq_some_iff] at hr
    obtain ⟨oldLen, hold, newLen, hnew, newLen', hnew', hr⟩ := hr
    rw [checkedSub_eq_some hold, checkedSub_eq_some hnew, checkedSub_eq_some hnew'] at hr
    rw [if_neg hlt]
    exact h hr

end

theorem agrees_loop (fuel : Nat) : Agrees (composeLoopChecked fuel) (composeLoop fuel) := by
  induction fuel with
  | zero =>
    intro oldEdits newEdits composed oldStart newStart r hr
    cases oldEdits <;> cases newEdits <;> simp_all [composeLoopChecked, composeLoop]
  | succ fuel ih =>
    intro oldEdits newEdits composed oldStart newStart r hr
    match oldEdits, newEdits with
    | [], [] => simpa [composeLoopChecked, composeLoop] using hr
    | oldEdit :: oldEdits, [] =>
      exact ih.composeOld hr
    | [], newEdit :: newEdits =>
      exact ih.composeNew hr
    | oldEdit :: oldEdits, newEdit :: newEdits =>
      simp only [composeLoopChecked] at hr
      simp only [composeLoop]
      split at hr
      · rename_i h1
        rw [if_pos h1]
        exact ih.composeOld hr
      rename_i h1
      rw [if_neg h1]
      split at hr
      · rename_i h2
        rw [if_pos h2]
        exact ih.composeNew hr
      rename_i h2
      rw [if_neg h2]
      split at hr
      · rename_i h3
        rw [if_pos h3]
        simp only [bind_eq_bind, bind_eq_some_iff] at hr
        obtain ⟨catchup, hcatchup, overshoot, hover, hr⟩ := hr
        rw [checkedSub_eq_some hcatchup, checkedSub_eq_some hover] at hr
        exact ih.composeMeet hr
      · rename_i h3
        rw [if_neg h3]
        simp only [bind_eq_bind, bind_eq_some_iff] at hr
        obtain ⟨catchup, hcatchup, overshoot, hover, hr⟩ := hr
        rw [checkedSub_eq_some hcatchup, checkedSub_eq_some hover] at hr
        exact ih.composeMeet hr

/-- **Composition is correct**: a patch from `a` to `b` composed with one from `b` to
`c` describes the change from `a` to `c`. -/
theorem describes_compose {p q : Patch} (hp : Describes p a b)
    (hq : Describes q b c) : Describes (p.compose q) a c := by
  obtain ⟨r, hr, hd⟩ := composes_loop (p.length + q.length) p q [] [] [] a b c 0 (le_refl _)
    hp.toDescribesOf.runs hq.toDescribesOf.runs (describesOf_nil [])
  have hcompose : p.compose q = r := agrees_loop _ hr
  rw [hcompose]
  simpa using hd.toDescribes

/-! ## Patches without texts -/

/-- The edits from `i` and `j` on are in order, and as much is kept before each of them in
the old text as in the new one. -/
def Aligned : Nat → Nat → Patch → Prop
  | _, _, [] => True
  | i, j, e :: p =>
    i ≤ e.old.start ∧ e.old.start + j = e.new.start + i ∧ e.old.start ≤ e.old.stop ∧
      e.new.start ≤ e.new.stop ∧ Aligned e.old.stop e.new.stop p

/-- **Well-formed**: in order with consistent deltas, apart in both texts, none empty. -/
structure WellFormed (patch : Patch) : Prop where
  aligned : patch.Aligned 0 0
  separated : patch.Separated
  nonempty : ∀ e ∈ patch, e.isEmpty = false

/-- The text from `i` on with each old range replaced, by the texts given for them in order. -/
def replacedFrom : Nat → Patch → List (List β) → List β → List β
  | i, e :: patch, y :: ys, text =>
    text.take (e.old.start - i) ++ (y ++ replacedFrom e.old.stop patch ys (text.drop (e.old.stop - i)))
  | _, _, _, text => text

/-- The text with all old ranges replaced at once. -/
def replaced (patch : Patch) (ys : List (List β)) (text : List β) : List β := replacedFrom 0 patch ys text

/-- There is a text for every edit, as long as its new range, and the old ranges are inside
of the text. -/
structure Fits (patch : Patch) (ys : List (List β)) (text : List β) : Prop where
  lengths : ys.map List.length = patch.map Edit.newLen
  inside : ∀ e ∈ patch, e.old.stop ≤ text.length

/-- The position is in no old range. -/
def Untouched (patch : Patch) (old : Nat) : Prop :=
  ∀ e ∈ patch, ¬ (e.old.start ≤ old ∧ old < e.old.stop)

theorem RunsOf.aligned (h : RunsOf fresh i j patch o n) : patch.Aligned i j := by
  induction h with
  | nil => trivial
  | cons g x y _ _ ih => exact ⟨by simp only; omega, by simp only; omega, by simp, by simp, ih⟩

/-- Replacing the ranges of a well-formed patch is a change that it describes. -/
theorem runsOf_replacedFrom {ys : List (List β)}
    {text : List β} (h : patch.Aligned i j) (hlen : ys.map List.length = patch.map Edit.newLen)
    (hin : ∀ e ∈ patch, e.old.stop ≤ i + text.length) (hy : ∀ y ∈ ys, ∀ t ∈ y, fresh t) :
    RunsOf fresh i j patch text (replacedFrom i patch ys text) := by
  induction patch generalizing i j ys text with
  | nil =>
    cases ys with
    | nil => exact .nil
    | cons y ys => simp at hlen
  | cons e patch ih =>
    cases ys with
    | nil => simp at hlen
    | cons y ys =>
      obtain ⟨hi, hdelta, hold, hnew, hrest⟩ := h
      simp only [map_cons, List.cons.injEq] at hlen
      rw [forall_mem_cons] at hin hy
      obtain ⟨⟨os, oe⟩, ns, ne⟩ := e
      simp only [Edit.newLen] at hi hdelta hold hnew hrest hlen hin
      -- what is kept, what is replaced, and the rest
      have hg : (text.take (os - i)).length = os - i := by
        rw [length_take]
        omega
      have hx : ((text.drop (os - i)).take (oe - os)).length = oe - os := by
        rw [length_take, length_drop]
        omega
      have hcut : text = text.take (os - i) ++
          ((text.drop (os - i)).take (oe - os) ++ text.drop (oe - i)) := by
        rw [show oe - i = os - i + (oe - os) by omega, ← drop_drop, take_append_drop,
          take_append_drop]
      have htail := @ih oe ne ys (text.drop (oe - i)) hrest hlen.2 (fun f hf => by
          have := hin.2 f hf
          rw [length_drop]
          omega) hy.2
      have hruns := RunsOf.cons (i := i) (j := j) (text.take (os - i))
        ((text.drop (os - i)).take (oe - os)) y hy.1 (o := text.drop (oe - i))
        (n := replacedFrom oe patch ys (text.drop (oe - i))) (p := patch) (by
          rw [hg, hx, hlen.1, show i + (os - i) + (oe - os) = oe by omega,
            show j + (os - i) + (ne - ns) = ne by omega]
          exact htail)
      rw [← hcut, hg, hx, hlen.1, show i + (os - i) = os by omega, show os + (oe - os) = oe by omega,
        show j + (os - i) = ns by omega, show ns + (ne - ns) = ne by omega] at hruns
      exact hruns

/-- And a patch that describes a change makes it, with the texts read off the new one. -/
theorem Runs.replacedFrom_eq (h : Runs i j patch o n) {front : List β} (hfront : front.length = j) :
    replacedFrom i patch (patch.map (·.new.slice (front ++ n))) o = n := by
  induction h generalizing front with
  | nil => rfl
  | @cons i j patch o n g x y _ ih =>
    have hslice : Range.slice ⟨j + g.length, j + g.length + y.length⟩ (front ++ (g ++ (y ++ n))) = y := by
      rw [Range.slice, Range.len, ← append_assoc, drop_left' (by simp [hfront]),
        Nat.add_sub_cancel_left, take_left' rfl]
    have hrest := @ih (front ++ (g ++ y)) (by simp [hfront, add_assoc])
    simp only [append_assoc] at hrest
    have htake : (g ++ (x ++ o)).take (i + g.length - i) = g := by
      rw [Nat.add_sub_cancel_left, take_left' rfl]
    have hdrop : (g ++ (x ++ o)).drop (i + g.length + x.length - i) = o := by
      rw [← append_assoc, drop_left' (by simp; omega)]
    simp only [map_cons, replacedFrom]
    rw [hslice, htake, hdrop, hrest]

/-- `old_to_new` from left to right. -/
def imageFrom : Nat → Nat → Patch → Nat → Nat
  | i, j, [], old => j + (old - i)
  | i, j, e :: patch, old =>
    if old < e.old.start then j + (old - i)
    else if old < e.old.stop then e.new.start
    else imageFrom e.old.stop e.new.stop patch old

theorem Separated.tail {e : Edit} (h : Separated (e :: patch)) : patch.Separated := by
  cases patch with
  | nil => exact isChain_nil
  | cons f patch => exact (List.isChain_cons_cons.mp h).2

theorem imageFrom_eq (hs : patch.Separated) (i j old : Nat) :
    (match (patch.takeWhile (·.old.start ≤ old)).getLast? with
      | none => j + (old - i)
      | some e => if e.old.stop ≤ old then e.new.stop + (old - e.old.stop) else e.new.start) =
      imageFrom i j patch old := by
  induction patch generalizing i j with
  | nil => rfl
  | cons e patch ih =>
    rw [imageFrom]
    by_cases hstart : old < e.old.start
    · rw [if_pos hstart, takeWhile_cons_of_neg (by simpa using hstart)]
      rfl
    · rw [if_neg hstart, takeWhile_cons_of_pos (by simpa using hstart), ← ih hs.tail]
      by_cases hstop : old < e.old.stop
      · -- the next edit starts behind it
        have hnone : patch.takeWhile (·.old.start ≤ old) = [] := by
          cases patch with
          | nil => rfl
          | cons f patch =>
            have := (List.isChain_cons_cons.mp hs).1.1
            exact takeWhile_cons_of_neg (by simp only [decide_eq_true_eq]; omega)
        rw [hnone, if_pos hstop]
        simp only [getLast?_singleton]
        rw [if_neg (by omega)]
      · rw [if_neg hstop]
        cases hlast : patch.takeWhile (·.old.start ≤ old) with
        | nil =>
          simp only [getLast?_singleton, getLast?_nil]
          rw [if_pos (by omega)]
        | cons f fs => rw [getLast?_cons_cons, getLast?_eq_some_getLast (cons_ne_nil f fs)]

theorem oldToNew_eq (hs : patch.Separated) (old : Nat) :
    patch.oldToNew old = imageFrom 0 0 patch old := by
  rw [← imageFrom_eq hs, oldToNew]
  cases (patch.takeWhile (·.old.start ≤ old)).getLast? with
  | none => simp
  | some e => rfl

theorem untouched_cons {e : Edit} {old : Nat} :
    Untouched (e :: patch) old ↔ ¬ (e.old.start ≤ old ∧ old < e.old.stop) ∧ patch.Untouched old :=
  forall_mem_cons

section

variable (h : RunsOf fresh i j patch o n)
include h

theorem RunsOf.untouched_of_lt {old : Nat} (hold : old < i) : patch.Untouched old := by
  induction h with
  | nil => simp [Untouched]
  | cons g x y _ _ ih => exact untouched_cons.mpr ⟨by simp only; omega, ih (by omega)⟩

theorem RunsOf.kept {k : Nat} {t : β} (hk : o[k]? = some t) (hu : patch.Untouched (i + k)) :
    ∃ m, imageFrom i j patch (i + k) = j + m ∧ n[m]? = some t := by
  induction h generalizing k with
  | nil => exact ⟨k, by simp [imageFrom], hk⟩
  | @cons i j patch o n g x y _ _ ih =>
    obtain ⟨hout, hu⟩ := untouched_cons.mp hu
    simp only at hout
    rw [imageFrom]
    by_cases hg : k < g.length
    · refine ⟨k, by rw [if_pos (by simp only; omega)]; omega, ?_⟩
      rw [getElem?_append_left hg] at hk ⊢
      exact hk
    · have hx : g.length + x.length ≤ k := by omega
      obtain ⟨d, rfl⟩ := Nat.exists_eq_add_of_le hx
      rw [← append_assoc, getElem?_append_right (by simp), length_append,
        Nat.add_sub_cancel_left] at hk
      obtain ⟨m, hm, hn⟩ := ih hk (by simpa [add_assoc] using hu)
      refine ⟨g.length + y.length + m, ?_, ?_⟩
      · rw [if_neg (by simp only; omega), if_neg (by simp only; omega),
          show i + (g.length + x.length + d) = i + g.length + x.length + d by omega, hm]
        omega
      · rw [← append_assoc, getElem?_append_right (by simp), length_append,
          Nat.add_sub_cancel_left]
        exact hn

theorem RunsOf.from_old {t : β} (hm : n[m]? = some t) (ht : ¬ fresh t) :
    ∃ k, o[k]? = some t ∧ patch.Untouched (i + k) ∧ imageFrom i j patch (i + k) = j + m := by
  induction h generalizing m with
  | nil => exact ⟨m, hm, by simp [Untouched], by simp [imageFrom]⟩
  | @cons i j patch o n g x y hy hruns ih =>
    by_cases hg : m < g.length
    · rw [getElem?_append_left hg] at hm
      refine ⟨m, by rw [getElem?_append_left hg]; exact hm, ?_, ?_⟩
      · exact untouched_cons.mpr ⟨by simp only; omega, hruns.untouched_of_lt (by omega)⟩
      · rw [imageFrom, if_pos (by simp only; omega)]
        omega
    · rw [getElem?_append_right (by omega)] at hm
      by_cases hmy : m - g.length < y.length
      · rw [getElem?_append_left hmy] at hm
        exact absurd (hy t (mem_of_getElem? hm)) ht
      · rw [getElem?_append_right (by omega)] at hm
        obtain ⟨k, hk, hu, himage⟩ := ih hm
        refine ⟨g.length + x.length + k, ?_, ?_, ?_⟩
        · rw [← append_assoc, getElem?_append_right (by simp), length_append,
            Nat.add_sub_cancel_left]
          exact hk
        · refine untouched_cons.mpr ⟨by simp only; omega, ?_⟩
          simpa [add_assoc] using hu
        · rw [imageFrom, if_neg (by simp only; omega), if_neg (by simp only; omega),
            show i + (g.length + x.length + k) = i + g.length + x.length + k by omega, himage]
          omega

end

/-! ## Composition of well-formed patches -/

theorem DescribesOf.wellFormed (h : DescribesOf fresh patch o n) : patch.WellFormed :=
  ⟨h.runs.aligned, h.separated, h.nonempty⟩

theorem WellFormed.describesOf (h : patch.WellFormed)
    {ys : List (List β)} {text : List β} (hfits : patch.Fits ys text) (hy : ∀ y ∈ ys, ∀ t ∈ y, fresh t) :
    DescribesOf fresh patch text (patch.replaced ys text) :=
  ⟨runsOf_replacedFrom h.aligned hfits.lengths (by simpa using hfits.inside) hy, h.separated, h.nonempty⟩

theorem composeChecked_spec {p q : Patch} (hp : DescribesOf fresh p a b)
    (hq : DescribesOf fresh q b c) : ∃ r, p.composeChecked q = some r ∧ DescribesOf fresh r a c := by
  obtain ⟨r, hr, hd⟩ := composes_loop (p.length + q.length) p q [] [] [] a b c 0 (le_refl _)
    hp.runs hq.runs (describesOf_nil [])
  exact ⟨r, hr, by simpa using hd⟩

theorem RunsOf.length_le
    (h : RunsOf fresh i j patch o n) : o.length ≤ n.length + (patch.map (·.old.stop)).sum := by
  induction h with
  | nil => omega
  | cons g x y _ _ ih =>
    simp only [length_append, map_cons, sum_cons]
    omega

theorem stop_le_sum {e : Edit} (h : e ∈ patch) : e.old.stop ≤ (patch.map (·.old.stop)).sum :=
  single_le_sum (fun _ _ => Nat.zero_le _) _ (List.mem_map_of_mem h)

/-- A text of numbered characters, and others to write. -/
abbrev Numbered := Nat ⊕ Unit

def numbered (n : Nat) : List Numbered := (List.range n).map .inl

def Written (t : Numbered) : Prop := t = .inr ()

/-- New texts that are written over the old ranges. -/
def written (patch : Patch) : List (List Numbered) := patch.map fun e => List.replicate e.newLen (.inr ())

theorem mem_written : ∀ y ∈ written patch, ∀ t ∈ y, Written t := by
  intro y hy t ht
  obtain ⟨e, -, rfl⟩ := List.mem_map.mp hy
  exact eq_of_mem_replicate ht

theorem lengths_written (patch : Patch) : (written patch).map List.length = patch.map Edit.newLen := by
  simp [written, Function.comp_def]

theorem numbered_getElem? {n k : Nat} (h : (numbered n)[k]? = some (.inl i)) : k = i := by
  rw [numbered, getElem?_map, map_eq_some_iff] at h
  obtain ⟨k', hk', hi⟩ := h
  obtain ⟨hlt, rfl⟩ := List.getElem?_eq_some_iff.mp hk'
  simpa using hi

/-- **The positions of a composition**: what neither patch touches, with the image under both. -/
theorem untouched_compose {p q r : Patch} {n : Nat} {b c : List Numbered}
    (hp : DescribesOf Written p (numbered n) b) (hq : DescribesOf Written q b c)
    (hr : DescribesOf Written r (numbered n) c) (hi : i < n) :
    (r.Untouched i ↔ p.Untouched i ∧ q.Untouched (p.oldToNew i)) ∧
      (r.Untouched i → r.oldToNew i = q.oldToNew (p.oldToNew i)) := by
  have hat : (numbered n)[i]? = some (.inl i) := by
    rw [numbered, getElem?_map, getElem?_range hi]
    rfl
  have hnew : ¬ Written (.inl i) := by simp [Written]
  simp only [oldToNew_eq hp.separated, oldToNew_eq hq.separated, oldToNew_eq hr.separated]
  -- a number that is left was in the middle, and at first
  have hforward : r.Untouched i → p.Untouched i ∧ q.Untouched (imageFrom 0 0 p i) ∧
      imageFrom 0 0 r i = imageFrom 0 0 q (imageFrom 0 0 p i) := by
    intro hu
    obtain ⟨m, hm, hc⟩ := hr.runs.kept hat (by simpa using hu)
    obtain ⟨k, hk, hqu, hqi⟩ := hq.runs.from_old hc hnew
    obtain ⟨k', hk', hpu, hpi⟩ := hp.runs.from_old hk hnew
    obtain rfl := numbered_getElem? hk'
    simp only [zero_add] at hm hqu hqi hpu hpi
    exact ⟨hpu, by rw [hpi]; exact hqu, by rw [hpi, hqi, hm]⟩
  refine ⟨⟨fun hu => ⟨(hforward hu).1, (hforward hu).2.1⟩, ?_⟩, fun hu => (hforward hu).2.2⟩
  rintro ⟨hpu, hqu⟩
  obtain ⟨k, hk, hb⟩ := hp.runs.kept hat (by simpa using hpu)
  simp only [zero_add] at hk
  obtain ⟨m, -, hc⟩ := hq.runs.kept hb (by simpa [hk] using hqu)
  obtain ⟨k', hk', hru, -⟩ := hr.runs.from_old hc hnew
  obtain rfl := numbered_getElem? hk'
  simpa using hru

/-- **Composition is sequential composition.** Of two well-formed patches it ends without a
subtraction below zero, and gives one; replacing the ranges of that in any text, by what
stands there in the end, is replacing those of the first and then those of the second. It
touches the positions that one of the two touches, and maps the others as both do in turn. -/
theorem compose_sequential (p q : Patch) (hp : p.WellFormed) (hq : q.WellFormed) :
    ∃ r, p.composeChecked q = some r ∧ p.compose q = r ∧ r.WellFormed ∧
      (∀ (β : Type) (ys zs : List (List β)) (text : List β), p.Fits ys text →
        q.Fits zs (p.replaced ys text) →
        r.replaced (r.map (·.new.slice (q.replaced zs (p.replaced ys text)))) text =
          q.replaced zs (p.replaced ys text)) ∧
      ∀ i, (r.Untouched i ↔ p.Untouched i ∧ q.Untouched (p.oldToNew i)) ∧
        (r.Untouched i → r.oldToNew i = q.oldToNew (p.oldToNew i)) := by
  -- a text that is long enough for both, and for a position
  have hlong : ∀ i, ∃ n, i < n ∧ p.Fits (written p) (numbered n) ∧
      q.Fits (written q) (p.replaced (written p) (numbered n)) := by
    intro i
    refine ⟨i + 1 + (p.map (·.old.stop)).sum + (q.map (·.old.stop)).sum, by omega, ?_⟩
    have hfits : p.Fits (written p)
        (numbered (i + 1 + (p.map (·.old.stop)).sum + (q.map (·.old.stop)).sum)) := by
      refine ⟨lengths_written p, fun e he => ?_⟩
      have := stop_le_sum he
      simp only [numbered, length_map, length_range]
      omega
    refine ⟨hfits, lengths_written q, fun e he => ?_⟩
    have hlen := (hp.describesOf hfits mem_written).runs.length_le
    have := stop_le_sum he
    simp only [numbered, length_map, length_range] at hlen ⊢
    omega
  obtain ⟨n, -, hpfits, hqfits⟩ := hlong 0
  obtain ⟨r, hr, hd⟩ := composeChecked_spec (hp.describesOf hpfits mem_written)
    (hq.describesOf hqfits mem_written)
  refine ⟨r, hr, agrees_loop _ hr, hd.wellFormed, fun β ys zs text hys hzs => ?_, fun i => ?_⟩
  · obtain ⟨r', hr', hd'⟩ := composeChecked_spec
      (hp.describesOf hys (fun _ _ _ _ => trivial : ∀ y ∈ ys, ∀ t ∈ y, (fun _ => True) t))
      (hq.describesOf hzs fun _ _ _ _ => trivial)
    obtain rfl : r = r' := some.inj (hr.symm.trans hr')
    exact hd'.toDescribes.runs.replacedFrom_eq (length_nil (α := β))
  · obtain ⟨n, hi, hpfits, hqfits⟩ := hlong i
    have hpd := hp.describesOf hpfits mem_written
    have hqd := hq.describesOf hqfits mem_written
    obtain ⟨r', hr', hd'⟩ := composeChecked_spec hpd hqd
    obtain rfl : r = r' := some.inj (hr.symm.trans hr')
    exact untouched_compose hpd hqd hd' hi

/-- An insertion, and a deletion of some of it with what is behind. -/
theorem compose_sequential_overlap :
    ∃ r, composeChecked [⟨⟨1, 1⟩, ⟨1, 4⟩⟩] [⟨⟨2, 6⟩, ⟨2, 2⟩⟩] = some r ∧ r.WellFormed ∧
      r.oldToNew 4 = 3 := by
  have hp : WellFormed [⟨⟨1, 1⟩, ⟨1, 4⟩⟩] :=
    ⟨by simp [Aligned], isChain_singleton _, by simp [Edit.isEmpty]⟩
  have hq : WellFormed [⟨⟨2, 6⟩, ⟨2, 2⟩⟩] :=
    ⟨by simp [Aligned], isChain_singleton _, by simp [Edit.isEmpty]⟩
  obtain ⟨r, hr, -, hwf, -, hpos⟩ := compose_sequential _ _ hp hq
  refine ⟨r, hr, hwf, ?_⟩
  have hu : r.Untouched 4 := (hpos 4).1.mpr ⟨by simp [Untouched], by simp [Untouched, oldToNew]⟩
  rw [(hpos 4).2 hu]
  decide

end Patch

end SpkEditor
