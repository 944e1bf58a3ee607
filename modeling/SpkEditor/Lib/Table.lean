import Mathlib.Algebra.Order.Ring.Nat
import Mathlib.Data.List.Nodup
import Mathlib.Data.List.Pairwise
import Mathlib.Logic.Function.Basic

/-!
# Tables

A table of a database as the partial map from its primary key to the rest of the row. A
query gives the rows as a list in some order (`Lists`); `ORDER BY` leaves the order open
among rows of one rank. Where no two rows share a rank, there is one answer only.
-/

namespace SpkEditor.Table

open List

variable {κ ν : Type} {t : κ → Option ν} {l : List (κ × ν)}

/-- `INSERT OR REPLACE`. -/
def put [DecidableEq κ] (t : κ → Option ν) (k : κ) (v : ν) : κ → Option ν :=
  Function.update t k (some v)

/-- `DELETE` by primary key. -/
def delete [DecidableEq κ] (t : κ → Option ν) (k : κ) : κ → Option ν := Function.update t k none

/-- The rows of a table, in some order. -/
def Lists (t : κ → Option ν) (rows : List (κ × ν)) : Prop :=
  (rows.map Prod.fst).Nodup ∧ ∀ k v, (k, v) ∈ rows ↔ t k = some v

theorem Lists.perm {l' : List (κ × ν)} (h : Lists t l) (h' : Lists t l') : l.Perm l' := by
  refine (perm_ext_iff_of_nodup h.1.of_map h'.1.of_map).mpr ?_
  rintro ⟨k, v⟩
  rw [h.2, h'.2]

theorem Lists.of_perm {l' : List (κ × ν)} (h : Lists t l) (hp : l'.Perm l) : Lists t l' := by
  refine ⟨((hp.map Prod.fst).nodup_iff).mpr h.1, ?_⟩
  intro k v
  rw [hp.mem_iff, h.2]

theorem lists_nil (h : ∀ k, t k = none) : Lists t [] := by
  refine ⟨nodup_nil, ?_⟩
  intro k v
  simp [h k]

theorem Lists.eq_none (h : Lists t l) {k : κ} (hk : k ∉ l.map Prod.fst) : t k = none := by
  rw [Option.eq_none_iff_forall_ne_some]
  intro v hv
  exact hk (List.mem_map.mpr ⟨(k, v), (h.2 k v).mpr hv, rfl⟩)

section

variable [DecidableEq κ]

section

variable (t : κ → Option ν)

theorem put_self (k : κ) (v : ν) : put t k v k = some v :=
  Function.update_self ..

theorem put_of_ne {k k' : κ} (v : ν) (h : k' ≠ k) : put t k v k' = t k' :=
  Function.update_of_ne h ..

theorem delete_self (k : κ) : delete t k k = none :=
  Function.update_self ..

theorem delete_of_ne {k k' : κ} (h : k' ≠ k) : delete t k k' = t k' :=
  Function.update_of_ne h ..

end

theorem Lists.put (h : Lists t l) {k : κ} (v : ν)
    (hk : k ∉ l.map Prod.fst) : Lists (put t k v) (l ++ [(k, v)]) := by
  constructor
  · rw [map_append]
    refine h.1.append (nodup_singleton _) ?_
    intro a ha ha'
    obtain rfl := List.mem_singleton.mp ha'
    exact hk ha
  · intro k' v'
    rw [mem_append, mem_singleton, h.2, Prod.mk.injEq]
    by_cases he : k' = k
    · rw [he, put_self, h.eq_none hk]
      simp [eq_comm]
    · rw [put_of_ne t v he]
      simp [he]

theorem Lists.delete (h : Lists t l) (k : κ) : Lists (delete t k) (l.filter (·.1 ≠ k)) := by
  constructor
  · exact h.1.sublist (List.filter_sublist.map Prod.fst)
  · intro k' v'
    rw [mem_filter, h.2]
    by_cases he : k' = k
    · rw [he, delete_self]
      simp
    · rw [delete_of_ne t he]
      simp [he]

theorem Lists.replace (h : Lists t l) {k : κ} (v : ν) (hk : k ∈ l.map Prod.fst) :
    Lists (Table.put t k v) (l.map fun r => if r.1 = k then (k, v) else r) := by
  constructor
  · have : (l.map fun r => if r.1 = k then (k, v) else r).map Prod.fst = l.map Prod.fst := by
      rw [List.map_map]
      refine map_congr_left fun r _ => ?_
      by_cases hr : r.1 = k
      · simp [hr]
      · simp [hr]
    rw [this]
    exact h.1
  · intro k' v'
    by_cases he : k' = k
    · rw [he, put_self, List.mem_map]
      constructor
      · rintro ⟨r, hr, hv⟩
        split at hv
        · exact congrArg some (Prod.mk.inj hv).2
        · rename_i hne
          exact absurd (congrArg Prod.fst hv) hne
      · intro hv
        obtain ⟨r, hr, hrk⟩ := List.mem_map.mp hk
        exact ⟨r, hr, by rw [if_pos hrk, Option.some.inj hv]⟩
    · rw [put_of_ne t v he, ← h.2, List.mem_map]
      constructor
      · rintro ⟨r, hr, hv⟩
        split at hv
        · exact absurd (Prod.mk.inj hv).1.symm he
        · exact hv ▸ hr
      · intro hr
        exact ⟨(k', v'), hr, if_neg he⟩

/-- `INSERT OR REPLACE`, row after row. -/
def putAll (t : κ → Option ν) (rows : List (κ × ν)) : κ → Option ν :=
  rows.foldl (fun t r => put t r.1 r.2) t

section

variable {rows : List (κ × ν)}

theorem putAll_of_not_mem {k : κ}
    (h : k ∉ rows.map Prod.fst) : putAll t rows k = t k := by
  induction rows generalizing t with
  | nil => rfl
  | cons r rows ih =>
    obtain ⟨hne, hrows⟩ := not_or.mp (mt List.mem_cons.mpr h)
    exact (ih hrows).trans (put_of_ne t r.2 hne)

theorem putAll_of_mem (hn : (rows.map Prod.fst).Nodup)
    {k : κ} {v : ν} (h : (k, v) ∈ rows) : putAll t rows k = some v := by
  induction rows generalizing t with
  | nil => simp at h
  | cons r rows ih =>
    obtain ⟨hr, hn⟩ := List.nodup_cons.mp hn
    rcases List.mem_cons.mp h with rfl | h
    · exact (putAll_of_not_mem hr).trans (put_self t _ _)
    · exact ih hn h

/-- Writing every row anew replaces the table, if no key is new and none is left out. -/
theorem Lists.putAll (h : Lists t l)
    (hn : (rows.map Prod.fst).Nodup) (hkeys : ∀ k ∈ l.map Prod.fst, k ∈ rows.map Prod.fst) :
    Lists (putAll t rows) rows := by
  refine ⟨hn, ?_⟩
  intro k v
  constructor
  · exact putAll_of_mem hn
  · intro hv
    by_cases hk : k ∈ rows.map Prod.fst
    · obtain ⟨⟨k', v'⟩, hm, rfl⟩ := List.mem_map.mp hk
      rw [putAll_of_mem hn hm] at hv
      exact Option.some.inj hv ▸ hm
    · rw [putAll_of_not_mem hk, h.eq_none fun hm => hk (hkeys k hm)] at hv
      simp at hv

end

end

/-- **Rows of different rank come back in one order only.** -/
theorem Lists.eq_of_rank {l' : List (κ × ν)} (rank : ν → Nat)
    (h : Lists t l) (h' : Lists t l') (hs : l.Pairwise fun a b => rank a.2 < rank b.2)
    (hs' : l'.Pairwise fun a b => rank a.2 ≤ rank b.2) : l' = l := by
  have hp : l'.Perm l := h'.perm h
  have hne : l.Pairwise fun a b => rank a.2 ≠ rank b.2 := hs.imp fun h => ne_of_lt h
  refine hp.eq_of_pairwise ?_ hs' (hs.imp fun h => le_of_lt h)
  intro a b ha hb hab hba
  by_contra hc
  have : Std.Symm fun a b : κ × ν => rank a.2 ≠ rank b.2 := ⟨fun _ _ h => h.symm⟩
  exact hne.forall (hp.mem_iff.mp ha) hb hc (le_antisymm hab hba)

end SpkEditor.Table
