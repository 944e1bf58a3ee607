import Mathlib.Algebra.Order.Ring.Nat
import Mathlib.Order.Lattice
import Mathlib.Data.List.Induction
import Mathlib.Tactic.Basic

/-!
# Lamport timestamps and version vectors

`crates/clock/src/clock.rs`. A `Lamport` names one operation: the sequence number
its replica drew for it, with the replica id breaking ties. A `Global` is a
version vector, stored densely by replica id.

Sequence numbers and replica ids are `Nat`: the source uses `u32` and `u16`, and
their arithmetic has no behaviour of its own below the overflow.
-/

namespace SpkEditor

open List

/-- `ReplicaId::LOCAL`, which also signs the base text of every buffer. -/
def ReplicaId.LOCAL : Nat := 0

/-- A Lamport timestamp, ordered by `value` and then by `replicaId`. -/
structure Lamport where
  value : Nat
  replicaId : Nat
  deriving DecidableEq

namespace Lamport

theorem ext_iff' {a b : Lamport} : a = b ↔ a.value = b.value ∧ a.replicaId = b.replicaId := by
  cases a; cases b; simp

instance : LE Lamport :=
  ⟨fun a b => a.value < b.value ∨ (a.value = b.value ∧ a.replicaId ≤ b.replicaId)⟩

instance : LT Lamport :=
  ⟨fun a b => a.value < b.value ∨ (a.value = b.value ∧ a.replicaId < b.replicaId)⟩

theorem le_def {a b : Lamport} :
    a ≤ b ↔ a.value < b.value ∨ (a.value = b.value ∧ a.replicaId ≤ b.replicaId) := Iff.rfl

theorem lt_def {a b : Lamport} :
    a < b ↔ a.value < b.value ∨ (a.value = b.value ∧ a.replicaId < b.replicaId) := Iff.rfl

instance : DecidableLE Lamport := fun a b =>
  inferInstanceAs (Decidable (a.value < b.value ∨ (a.value = b.value ∧ a.replicaId ≤ b.replicaId)))

instance : DecidableLT Lamport := fun a b =>
  inferInstanceAs (Decidable (a.value < b.value ∨ (a.value = b.value ∧ a.replicaId < b.replicaId)))

/-- `impl Ord for Lamport`. -/
instance : LinearOrder Lamport where
  le_refl a := by rw [le_def]; omega
  le_trans a b c hab hbc := by rw [le_def] at *; omega
  lt_iff_le_not_ge a b := by rw [lt_def, le_def, le_def]; omega
  le_antisymm a b hab hba := by rw [ext_iff']; rw [le_def] at *; omega
  le_total a b := by rw [le_def, le_def]; omega
  toDecidableLE := inferInstance
  toDecidableLT := inferInstance
  toDecidableEq := inferInstance

/-- `Lamport::MIN`. -/
def MIN : Lamport := ⟨0, 0⟩

/-- `Lamport::MAX`: the largest sequence number of the largest replica id. -/
def MAX : Lamport := ⟨2 ^ 32 - 1, 2 ^ 16 - 1⟩

/-- `Lamport::new`. -/
def new (replicaId : Nat) : Lamport := ⟨1, replicaId⟩

/-- `u32::MAX`, the largest sequence number. -/
def SEQ_MAX : Nat := 2 ^ 32 - 1

/-- `Lamport::tick`: the timestamp handed out, and the clock after it. `none` is the
overflow of `self.value += 1`. -/
def tick (clock : Lamport) : Option (Lamport × Lamport) :=
  if clock.value < SEQ_MAX then some (clock, { clock with value := clock.value + 1 }) else none

/-- `Lamport::observe`. -/
def observe (clock timestamp : Lamport) : Lamport :=
  { clock with value := max clock.value timestamp.value + 1 }

theorem tick_eq_some {c t c' : Lamport} (h : c.tick = some (t, c')) :
    t = c ∧ c.value < SEQ_MAX ∧ c'.value = c.value + 1 ∧ c'.replicaId = c.replicaId := by
  unfold tick at h
  split at h
  · rename_i hlt
    obtain ⟨rfl, rfl⟩ := h
    exact ⟨rfl, hlt, rfl, rfl⟩
  · cases h

theorem observe_value (c t : Lamport) : (c.observe t).value = max c.value t.value + 1 := rfl

theorem MIN_le (t : Lamport) : MIN ≤ t := by
  rw [le_def]
  simp only [MIN]
  omega

/-- A strictly larger sequence number is a strictly larger timestamp. -/
theorem lt_of_value_lt {a b : Lamport} (h : a.value < b.value) : a < b := .inl h

end Lamport

/-! ## Version vectors -/

/--
A version vector: entry `r` is the last sequence number observed from replica
`r`, `0` when nothing was. No vector ends in a zero entry, which is what lets
`observedAll` compare lengths before it compares entries.
-/
structure Global where
  values : List Nat
  /-- The last entry, if there is one, is not zero. -/
  trimmed : values.getLast? ≠ some 0
  deriving DecidableEq

namespace Global

/-- `Global::new`. -/
def new : Global := ⟨[], by simp⟩

instance : Inhabited Global := ⟨new⟩

/-- The entry of a raw vector, `0` past its end. -/
def entry (values : List Nat) (r : Nat) : Nat := values.getD r 0

/-- `Global::get`. -/
def get (g : Global) (r : Nat) : Nat := entry g.values r

/-- `SmallVec::resize` with zeros, only ever used to grow. -/
def grow (values : List Nat) (n : Nat) : List Nat :=
  values ++ List.replicate (n - values.length) 0

theorem entry_grow (values : List Nat) (n : Nat) (r : Nat) :
    entry (grow values n) r = entry values r := by
  simp only [entry, grow, getD_eq_getElem?_getD, getElem?_append]
  split
  · rfl
  · rw [getElem?_replicate]
    rename_i h
    rw [getElem?_eq_none (by omega)]
    split <;> rfl

theorem length_grow (values : List Nat) (n : Nat) :
    (grow values n).length = max values.length n := by
  simp only [grow, length_append, length_replicate, Nat.max_def]
  split <;> omega

theorem trimmed_iff {values : List Nat} :
    values.getLast? ≠ some 0 ↔ values = [] ∨ 0 < entry values (values.length - 1) := by
  cases values using List.reverseRecOn with
  | nil => simp
  | append_singleton l x =>
    simp [entry, getD_eq_getElem?_getD, Nat.pos_iff_ne_zero]

/-- The body of `Global::observe` on the raw vector. -/
def observeValues (values : List Nat) (t : Lamport) : List Nat :=
  if 0 < t.value then
    let values := grow values (t.replicaId + 1)
    values.set t.replicaId (max (entry values t.replicaId) t.value)
  else values

theorem entry_observeValues (values : List Nat) (t : Lamport) (r : Nat) :
    entry (observeValues values t) r =
      if r = t.replicaId then max (entry values r) t.value else entry values r := by
  unfold observeValues
  split
  · have hlen : t.replicaId < (grow values (t.replicaId + 1)).length := by
      rw [length_grow]; exact lt_of_lt_of_le (Nat.lt_succ_self _) (le_max_right _ _)
    simp only [entry, getD_eq_getElem?_getD, getElem?_set]
    by_cases hr : r = t.replicaId
    · subst hr
      simp only [if_true, hlen]
      have := entry_grow values (t.replicaId + 1) t.replicaId
      simp only [entry, getD_eq_getElem?_getD] at this
      simp [this]
    · rw [if_neg (fun h => hr h.symm), if_neg hr]
      exact entry_grow values (t.replicaId + 1) r
  · have hz : t.value = 0 := by omega
    split
    · rw [hz]; exact (max_eq_left (Nat.zero_le _)).symm
    · rfl

theorem length_observeValues (values : List Nat) (t : Lamport) (h : 0 < t.value) :
    (observeValues values t).length = max values.length (t.replicaId + 1) := by
  simp [observeValues, h, length_grow]

theorem trimmed_observeValues {values : List Nat} (t : Lamport)
    (h : values.getLast? ≠ some 0) : (observeValues values t).getLast? ≠ some 0 := by
  by_cases ht : 0 < t.value
  · rw [trimmed_iff]
    right
    rw [entry_observeValues, length_observeValues _ _ ht]
    split
    · exact lt_of_lt_of_le ht (le_max_right _ _)
    · rename_i hne
      rcases (trimmed_iff.mp h) with hnil | hpos
      · subst hnil; simp at hne
      · have hlt : t.replicaId + 1 < values.length := by
          rcases lt_or_ge (t.replicaId + 1) values.length with hlt | hge
          · exact hlt
          · exact absurd (by rw [max_eq_right hge]; rfl) hne
        rw [show max values.length (t.replicaId + 1) = values.length from
          max_eq_left (le_of_lt hlt)]
        exact hpos
  · simpa [observeValues, ht] using h

/-- `Global::observe`. -/
def observe (g : Global) (t : Lamport) : Global :=
  ⟨observeValues g.values t, trimmed_observeValues t g.trimmed⟩

theorem get_observe (g : Global) (t : Lamport) (r : Nat) :
    (g.observe t).get r = if r = t.replicaId then max (g.get r) t.value else g.get r :=
  entry_observeValues g.values t r

/-- The body of `Global::join` on the raw vectors. -/
def joinValues (left right : List Nat) : List Nat :=
  let left := grow left right.length
  left.zipWith max right ++ left.drop right.length

theorem entry_zipGrown {f : Nat → Nat → Nat} (hf : ∀ x, f x 0 = x) (left right : List Nat) (r : Nat) :
    entry ((grow left right.length).zipWith f right ++ (grow left right.length).drop right.length) r =
      f (entry left r) (entry right r) := by
  have hlen := length_grow left right.length
  have hg := entry_grow left right.length r
  have hle : right.length ≤ (grow left right.length).length := by
    rw [hlen]; exact le_max_right _ _
  rw [← hg]
  simp only [entry, getD_eq_getElem?_getD]
  rw [getElem?_append]
  simp only [length_zipWith, min_eq_right hle]
  split
  · rename_i h
    rw [getElem?_zipWith, getElem?_eq_getElem h,
      getElem?_eq_getElem (lt_of_lt_of_le h hle)]
    rfl
  · rename_i h
    rw [getElem?_drop, getElem?_eq_none (l := right) (by omega)]
    have : right.length + (r - right.length) = r := by omega
    rw [this]
    exact (hf _).symm

theorem entry_joinValues (left right : List Nat) (r : Nat) :
    entry (joinValues left right) r = max (entry left r) (entry right r) :=
  entry_zipGrown (fun _ => max_eq_left (Nat.zero_le _)) left right r

theorem length_joinValues (left right : List Nat) :
    (joinValues left right).length = max left.length right.length := by
  have hlen := length_grow left right.length
  have hle : right.length ≤ (grow left right.length).length := by
    rw [hlen]; exact le_max_right _ _
  simp only [joinValues, length_append, length_zipWith, length_drop, min_eq_right hle]
  omega

theorem trimmed_joinValues {left right : List Nat} (hl : left.getLast? ≠ some 0)
    (hr : right.getLast? ≠ some 0) : (joinValues left right).getLast? ≠ some 0 := by
  rw [trimmed_iff] at *
  rw [entry_joinValues, length_joinValues]
  rcases le_total left.length right.length with hle | hle
  · rw [show max left.length right.length = right.length from max_eq_right hle]
    rcases hr with hr | hr
    · left
      apply eq_nil_of_length_eq_zero
      rw [length_joinValues, hr]
      rw [hr] at hle
      simpa using hle
    · right; exact lt_of_lt_of_le hr (le_max_right _ _)
  · rw [show max left.length right.length = left.length from max_eq_left hle]
    rcases hl with hl | hl
    · left
      apply eq_nil_of_length_eq_zero
      rw [length_joinValues, hl]
      rw [hl] at hle
      simpa using hle
    · right; exact lt_of_lt_of_le hl (le_max_left _ _)

/-- `Global::join`. -/
def join (g other : Global) : Global :=
  ⟨joinValues g.values other.values, trimmed_joinValues g.trimmed other.trimmed⟩

/-- `Global::observed`. -/
def observed (g : Global) (t : Lamport) : Bool := t.value ≤ g.get t.replicaId

/-- `Global::observed_all`. -/
def observedAll (g other : Global) : Bool :=
  if g.values.length < other.values.length then false
  else (g.values.zip other.values).all (fun p => p.2 ≤ p.1)

@[simp] theorem observed_iff {g : Global} {t : Lamport} :
    g.observed t = true ↔ t.value ≤ g.get t.replicaId := by simp [observed]

theorem get_eq_zero {g : Global} {r : Nat} (h : g.values.length ≤ r) : g.get r = 0 := by
  simp [get, entry, getD_eq_getElem?_getD, getElem?_eq_none h]

/-- **`observed_all` is the pointwise order.** Its length test is exact because
no vector carries a trailing zero. -/
theorem observedAll_iff {g other : Global} :
    g.observedAll other = true ↔ ∀ r, other.get r ≤ g.get r := by
  unfold observedAll
  split
  · rename_i hlt
    simp only [Bool.false_eq_true, false_iff]
    intro hall
    have hpos : 0 < entry other.values (other.values.length - 1) := by
      rcases trimmed_iff.mp other.trimmed with h | h
      · rw [h] at hlt; simp at hlt
      · exact h
    have h0 : g.get (other.values.length - 1) = 0 := get_eq_zero (by omega)
    have := hall (other.values.length - 1)
    rw [h0] at this
    exact absurd hpos (by simpa [get] using this)
  · rename_i hge
    rw [all_eq_true]
    constructor
    · intro h r
      rcases lt_or_ge r other.values.length with hr | hr
      · have hmem : (g.get r, other.get r) ∈ g.values.zip other.values := by
          rw [mem_iff_getElem?]
          refine ⟨r, ?_⟩
          rw [getElem?_zip_eq_some]
          simp only [get, entry, getD_eq_getElem?_getD]
          rw [getElem?_eq_getElem (by omega), getElem?_eq_getElem hr]
          exact ⟨rfl, rfl⟩
        simpa using h _ hmem
      · rw [get_eq_zero hr]; exact Nat.zero_le _
    · intro h p hp
      obtain ⟨i, hi⟩ := mem_iff_getElem?.mp hp
      rw [getElem?_zip_eq_some] at hi
      have := h i
      simp only [get, entry, getD_eq_getElem?_getD, hi.1, hi.2] at this
      simpa using this

@[simp] theorem get_new (r : Nat) : new.get r = 0 := by simp [new, get, entry]

/-- Two vectors with the same entries are the same vector. -/
theorem ext_get {g h : Global} (hget : ∀ r, g.get r = h.get r) : g = h := by
  have hlen : ∀ a b : Global, (∀ r, a.get r = b.get r) → a.values.length ≤ b.values.length := by
    intro a b hab
    rcases trimmed_iff.mp a.trimmed with hn | hp
    · simp [hn]
    · rcases lt_or_ge b.values.length a.values.length with hlt | hge
      · have h0 : b.get (a.values.length - 1) = 0 := get_eq_zero (by omega)
        rw [← hab] at h0
        exact absurd hp (by simp only [get] at h0; omega)
      · exact hge
  have heq : g.values = h.values := by
    apply ext_getElem (le_antisymm (hlen g h hget) (hlen h g (fun r => (hget r).symm)))
    intro i h1 h2
    have := hget i
    simpa [get, entry, getD_eq_getElem?_getD, getElem?_eq_getElem h1,
      getElem?_eq_getElem h2] using this
  cases g; cases h; simp_all

theorem observed_of_observedAll {g other : Global} {t : Lamport}
    (h : g.observedAll other = true) (ht : other.observed t = true) : g.observed t = true := by
  rw [observed_iff] at *
  exact le_trans ht (observedAll_iff.mp h t.replicaId)

theorem observed_observe {g : Global} {t u : Lamport} : (g.observe t).observed u = true ↔
      g.observed u = true ∨ (u.replicaId = t.replicaId ∧ u.value ≤ t.value) := by
  rw [observed_iff, observed_iff, get_observe]
  split
  · rename_i h
    constructor
    · intro hu
      rcases le_total (g.get u.replicaId) t.value with hle | hle
      · right; exact ⟨h, by rwa [show max _ _ = t.value from max_eq_right hle] at hu⟩
      · left; rwa [show max _ _ = g.get u.replicaId from max_eq_left hle] at hu
    · rintro (hu | ⟨-, hu⟩)
      · exact le_trans hu (le_max_left _ _)
      · exact le_trans hu (le_max_right _ _)
  · rename_i h
    simp [h]

theorem observed_observe_self (g : Global) (t : Lamport) : (g.observe t).observed t = true :=
  observed_observe.mpr (.inr ⟨rfl, le_refl _⟩)

theorem observed_observe_of {g : Global} {t u : Lamport} (h : g.observed u = true) :
    (g.observe t).observed u = true := observed_observe.mpr (.inl h)

theorem observedAll_refl (g : Global) : g.observedAll g = true :=
  observedAll_iff.mpr (fun _ => le_refl _)

theorem observedAll_trans {a b c : Global} (hab : a.observedAll b = true)
    (hbc : b.observedAll c = true) : a.observedAll c = true :=
  observedAll_iff.mpr (fun r =>
    le_trans (observedAll_iff.mp hbc r) (observedAll_iff.mp hab r))

theorem observedAll_observe {g other : Global} (t : Lamport) (h : g.observedAll other = true) :
    (g.observe t).observedAll other = true := by
  refine observedAll_iff.mpr (fun r => le_trans (observedAll_iff.mp h r) ?_)
  rw [get_observe]
  split
  · exact le_max_left _ _
  · exact le_refl _

end Global

end SpkEditor
