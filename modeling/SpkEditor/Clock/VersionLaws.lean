import SpkEditor.Clock.Clock
import Mathlib.Data.List.Zip

/-!
# The laws of version vectors

`Global::meet` and the comparisons that look at lengths before they look at entries. They are right
because no vector ends in a zero. `observe` and `join` keep it so, and `meet`, which drops the zeros that
it has made.

A zero entry means that nothing was observed. For `meet` that is more than every sequence number
(`SeenLe`), so the meet of two vectors knows every replica that one of them knows.
-/

namespace SpkEditor

open List

namespace Global

def meetEntry : Nat → Nat → Nat
  -- left has not observed the replica
  | 0, right => right
  -- right has not observed the replica
  | left, 0 => left
  | left, right => min left right

/-- The number of entries up to the last one that is not zero. -/
def lastObserved (values : List Nat) : Nat :=
  values.zipIdx.foldl (fun newLen entry => if entry.1 ≠ 0 then entry.2 + 1 else newLen) 0

/-- The body of `Global::meet` on the raw vectors. -/
def meetValues (left right : List Nat) : List Nat :=
  let left := grow left right.length
  let met := left.zipWith meetEntry right
  let values := met ++ left.drop right.length
  -- the tail of a longer vector ends in an entry that is not zero
  if right.length = left.length then values.take (lastObserved met) else values

section

variable (values : List Nat)

theorem lastObserved_append_singleton (x : Nat) :
    lastObserved (values ++ [x]) = if x ≠ 0 then values.length + 1 else lastObserved values := by
  rw [lastObserved, zipIdx_append, foldl_append]
  simp [lastObserved]

theorem lastObserved_le : lastObserved values ≤ values.length := by
  induction values using List.reverseRecOn with
  | nil => exact le_refl 0
  | append_singleton values x ih =>
    rw [lastObserved_append_singleton, length_append, length_singleton]
    split
    · exact le_refl _
    · exact Nat.le_succ_of_le ih

/-- Dropping the zeros at the end leaves the vector as it is, in its canonical form. -/
theorem take_lastObserved :
    (∀ r, entry (values.take (lastObserved values)) r = entry values r) ∧
      (values.take (lastObserved values)).getLast? ≠ some 0 := by
  induction values using List.reverseRecOn with
  | nil => exact ⟨fun _ => rfl, by simp⟩
  | append_singleton values x ih =>
    rw [lastObserved_append_singleton]
    by_cases hx : x = 0
    · subst hx
      rw [if_neg (by simp), take_append_of_le_length (lastObserved_le values)]
      refine ⟨fun r => (ih.1 r).trans ?_, ih.2⟩
      have := entry_grow values (values.length + 1) r
      rw [grow, Nat.add_sub_cancel_left] at this
      exact this.symm
    · rw [if_pos hx, take_of_length_le (by simp)]
      exact ⟨fun _ => rfl, by simpa using hx⟩

end

theorem meetEntry_zero (left : Nat) : meetEntry left 0 = left := by
  cases left with
  | zero => rfl
  | succ left => rfl

theorem entry_meetValues (left right : List Nat) (r : Nat) :
    entry (meetValues left right) r = meetEntry (entry left r) (entry right r) := by
  have hvalues := entry_zipGrown meetEntry_zero left right r
  unfold meetValues
  simp only
  split
  · next hlen =>
    rw [drop_eq_nil_of_le (le_of_eq hlen.symm), append_nil] at hvalues ⊢
    rw [(take_lastObserved _).1, hvalues]
  · exact hvalues

theorem trimmed_meetValues {left : List Nat} (hl : left.getLast? ≠ some 0) (right : List Nat) :
    (meetValues left right).getLast? ≠ some 0 := by
  unfold meetValues
  simp only
  split
  · next hlen =>
    rw [drop_eq_nil_of_le (le_of_eq hlen.symm), append_nil]
    exact (take_lastObserved _).2
  · next hlen =>
    -- the left vector is the longer one, and its end is not touched
    rw [length_grow] at hlen
    have hlt : right.length < left.length := by omega
    have hgrow : grow left right.length = left := by
      rw [grow, Nat.sub_eq_zero_of_le (le_of_lt hlt), replicate_zero, append_nil]
    have hdrop : left.drop right.length ≠ [] := fun h => by
      have := List.drop_eq_nil_iff.mp h
      omega
    rw [hgrow, List.getLast?_append_of_ne_nil _ hdrop, List.getLast?_drop, if_neg (by omega)]
    exact hl

/-- `Global::meet`. -/
def meet (g other : Global) : Global :=
  ⟨meetValues g.values other.values, trimmed_meetValues g.trimmed other.values⟩

theorem get_meet (g other : Global) (r : Nat) : (g.meet other).get r = meetEntry (g.get r) (other.get r) :=
  entry_meetValues g.values other.values r

theorem get_join (g other : Global) (r : Nat) : (g.join other).get r = max (g.get r) (other.get r) :=
  entry_joinValues g.values other.values r

theorem meetEntry_comm (a b : Nat) : meetEntry a b = meetEntry b a := by
  cases a <;> cases b
  · rfl
  · rfl
  · rfl
  · exact min_comm _ _

theorem meetEntry_self (a : Nat) : meetEntry a a = a := by
  cases a with
  | zero => rfl
  | succ a => exact Nat.min_self _

theorem meetEntry_assoc (a b c : Nat) : meetEntry (meetEntry a b) c = meetEntry a (meetEntry b c) := by
  cases a with
  | zero => rfl
  | succ a =>
    cases b with
    | zero => rfl
    | succ b =>
      cases c with
      | zero => rw [meetEntry_zero, meetEntry_zero]
      | succ c =>
        simp only [meetEntry, Nat.succ_min_succ]
        rw [Nat.min_assoc]

/-! ## Comparisons -/

/-- `Global::observed_any`. -/
def observedAny (g other : Global) : Bool :=
  (g.values.zip other.values).any fun p => 0 < p.2 ∧ p.2 ≤ p.1

/-- `Global::changed_since`. -/
def changedSince (g other : Global) : Bool :=
  other.values.length < g.values.length || (g.values.zip other.values).any fun p => p.2 < p.1

theorem mem_zip_get {g other : Global} {r : Nat} (hg : r < g.values.length) (ho : r < other.values.length) :
    (g.get r, other.get r) ∈ g.values.zip other.values := by
  refine mem_iff_getElem?.mpr ⟨r, List.getElem?_zip_eq_some.mpr ?_⟩
  simp [get, entry, hg, ho]

theorem get_of_mem_zip {g other : Global} {p : Nat × Nat} (h : p ∈ g.values.zip other.values) :
    ∃ r, p = (g.get r, other.get r) := by
  obtain ⟨r, hr⟩ := mem_iff_getElem?.mp h
  obtain ⟨hg, ho⟩ := List.getElem?_zip_eq_some.mp hr
  exact ⟨r, by simp [get, entry, hg, ho]⟩

theorem lt_length_of_get_pos {g : Global} {r : Nat} (h : 0 < g.get r) : r < g.values.length := by
  by_contra hge
  rw [get_eq_zero (Nat.le_of_not_lt hge)] at h
  exact Nat.lt_irrefl 0 h

theorem observedAny_iff {g other : Global} :
    g.observedAny other = true ↔ ∃ r, 0 < other.get r ∧ other.get r ≤ g.get r := by
  rw [observedAny, List.any_eq_true]
  constructor
  · rintro ⟨p, hp, hle⟩
    obtain ⟨r, rfl⟩ := get_of_mem_zip hp
    exact ⟨r, of_decide_eq_true hle⟩
  · rintro ⟨r, hpos, hle⟩
    have hmem := mem_zip_get (lt_length_of_get_pos (lt_of_lt_of_le hpos hle)) (lt_length_of_get_pos hpos)
    exact ⟨_, hmem, decide_eq_true ⟨hpos, hle⟩⟩

theorem changedSince_eq (g other : Global) : g.changedSince other = !other.observedAll g := by
  rw [changedSince, observedAll, ← zip_swap other.values g.values, List.any_map]
  by_cases h : other.values.length < g.values.length
  · simp [h]
  · simp only [h, decide_false, Bool.false_or, if_false, not_all_eq_any_not]
    congr 1
    funext p
    simp only [Function.comp_apply, Prod.fst_swap, Prod.snd_swap, ← decide_not, not_le]

theorem changedSince_iff {g other : Global} :
    g.changedSince other = true ↔ ∃ r, other.get r < g.get r := by
  rw [changedSince_eq, Bool.not_eq_true', ← Bool.not_eq_true, observedAll_iff]
  simp

/-! ## The vectors of the program -/

/-- What is built from `new` by `observe`, `join` and `meet`, on the raw vectors. -/
inductive Built : List Nat → Prop
  | new : Built []
  | observe {values : List Nat} (t : Lamport) : Built values → Built (observeValues values t)
  | join {left right : List Nat} : Built left → Built right → Built (joinValues left right)
  | meet {left right : List Nat} : Built left → Built right → Built (meetValues left right)

theorem Built.trimmed {values : List Nat} (h : Built values) : values.getLast? ≠ some 0 := by
  induction h with
  | new => simp
  | observe t _ ih => exact trimmed_observeValues t ih
  | join _ _ ihl ihr => exact trimmed_joinValues ihl ihr
  | meet _ _ ihl _ => exact trimmed_meetValues ihl _

def Built.global {values : List Nat} (h : Built values) : Global := ⟨values, h.trimmed⟩

/-- The order of sequence numbers, where zero stands for a replica that was not observed and is more
than every number. -/
def SeenLe (m n : Nat) : Prop := n = 0 ∨ 0 < m ∧ m ≤ n

/-- One of two sequence numbers, and no more than either. -/
structure IsSeenMin (a b m : Nat) : Prop where
  mem : m = a ∨ m = b
  left : SeenLe m a
  right : SeenLe m b

theorem isSeenMin_meetEntry (a b : Nat) : IsSeenMin a b (meetEntry a b) := by
  cases a with
  | zero => exact ⟨.inr rfl, .inl rfl, by unfold SeenLe; simp only [meetEntry]; omega⟩
  | succ a =>
    cases b with
    | zero => exact ⟨.inl rfl, .inr ⟨Nat.succ_pos a, le_refl _⟩, .inl rfl⟩
    | succ b =>
      refine ⟨?_, .inr ⟨?_, min_le_left _ _⟩, .inr ⟨?_, min_le_right _ _⟩⟩
      · exact (le_total (a + 1) (b + 1)).imp min_eq_left min_eq_right
      · exact Nat.lt_min.mpr ⟨Nat.succ_pos a, Nat.succ_pos b⟩
      · exact Nat.lt_min.mpr ⟨Nat.succ_pos a, Nat.succ_pos b⟩

/-- **The laws of version vectors.** -/
theorem version_laws {a b c : List Nat} (ha : Built a) (hb : Built b) (hc : Built c) :
    (a.getLast? ≠ some 0) ∧
      (ha.global.observedAll hb.global = true ↔ ∀ r, hb.global.get r ≤ ha.global.get r) ∧
      (ha.global.changedSince hb.global = true ↔ ∃ r, hb.global.get r < ha.global.get r) ∧
      (∀ r, (ha.global.join hb.global).get r = max (ha.global.get r) (hb.global.get r)) ∧
      ((ha.global.meet hb.global).meet hc.global = ha.global.meet (hb.global.meet hc.global)) ∧
      (ha.global.meet hb.global = hb.global.meet ha.global) ∧
      (ha.global.meet ha.global = ha.global) ∧
      (∀ r, IsSeenMin (ha.global.get r) (hb.global.get r) ((ha.global.meet hb.global).get r)) ∧
      (a = b ↔ ∀ r, ha.global.get r = hb.global.get r) := by
  refine ⟨ha.trimmed, observedAll_iff, changedSince_iff, get_join _ _, ?_, ?_, ?_, ?_, ?_⟩
  · exact ext_get fun r => by simp only [get_meet, meetEntry_assoc]
  · exact ext_get fun r => by rw [get_meet, get_meet, meetEntry_comm]
  · exact ext_get fun r => by rw [get_meet, meetEntry_self]
  · intro r
    rw [get_meet]
    exact isSeenMin_meetEntry _ _
  · constructor
    · rintro rfl r
      rfl
    · intro h
      exact congrArg Global.values (ext_get h)

/-- A vector with a gap, and one that fills it. -/
theorem version_laws_gap : (Built [0, 2] ∧ Built [3, 1]) ∧
    (⟨[0, 2], by simp⟩ : Global).meet ⟨[3, 1], by simp⟩ = (⟨[3, 1], by simp⟩ : Global).meet ⟨[0, 2], by simp⟩ := by
  have hgap : Built [0, 2] := .observe ⟨2, 1⟩ .new
  have hfill : Built [3, 1] := .observe ⟨3, 0⟩ (.observe ⟨1, 1⟩ .new)
  exact ⟨⟨hgap, hfill⟩, (version_laws hgap hfill hgap).2.2.2.2.2.1⟩

end Global

end SpkEditor
