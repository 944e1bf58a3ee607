import Mathlib.Data.List.Perm.Basic

/-!
# Who holds what

Items carry the tag of the parcel they belong to, or none, and lie in containers. A system
that only moves containers around, empties several into one, or adds items without a tag
never splits a parcel and never doubles one: each stays whole, in one container.
-/

namespace SpkEditor

open List

variable {π ι : Type} [DecidableEq ι] (tag : π → Option ι)

/-- The items of parcel `i` in a container. -/
def share (i : ι) (c : List π) : List π := c.filter fun p => tag p = some i

/-- The containers' shares of parcel `i`, the empty ones left out. -/
def shares (i : ι) (cs : List (List π)) : List (List π) := (cs.map (share tag i)).filter fun c => !c.isEmpty

/-- Each parcel is whole and in one container. -/
def Held (whole : ι → List π) (cs : List (List π)) : Prop :=
  ∀ i, shares tag i cs = shares tag i [whole i]

/-- A rearrangement of containers that splits no parcel. -/
def Keeps (cs cs' : List (List π)) : Prop :=
  ∀ i, (shares tag i cs).length ≤ 1 → shares tag i cs' = shares tag i cs

variable {tag} {i : ι} {c d : List π} {as bs cs ds : List (List π)} {whole whole' : ι → List π}

@[simp] theorem share_nil : share tag i [] = [] := rfl

@[simp] theorem share_append : share tag i (c ++ d) = share tag i c ++ share tag i d := filter_append ..

theorem share_eq_nil (h : ∀ p ∈ c, tag p ≠ some i) : share tag i c = [] := by
  refine List.filter_eq_nil_iff.2 fun p hp => ?_
  simpa using h p hp

theorem share_eq_self (h : ∀ p ∈ c, tag p = some i) : share tag i c = c := by
  refine List.filter_eq_self.2 fun p hp => ?_
  simpa using h p hp

@[simp] theorem shares_nil : shares tag i ([] : List (List π)) = [] := rfl

@[simp] theorem shares_append : shares tag i (as ++ bs) = shares tag i as ++ shares tag i bs := by
  simp [shares]

theorem shares_cons : shares tag i (c :: cs) = shares tag i [c] ++ shares tag i cs := by
  rw [← shares_append, singleton_append]

theorem shares_singleton : shares tag i [c] = if share tag i c = [] then [] else [share tag i c] := by
  unfold shares
  by_cases h : share tag i c = [] <;> simp [h]

theorem shares_singleton_length : (shares tag i [c]).length ≤ 1 := by
  rw [shares_singleton]
  split <;> simp

theorem mem_shares {x : List π} : x ∈ shares tag i cs ↔ (∃ c ∈ cs, share tag i c = x) ∧ x ≠ [] := by
  simp [shares]

theorem shares_perm (h : as.Perm bs) : (shares tag i as).Perm (shares tag i bs) := (h.map _).filter _

theorem share_flatten : share tag i cs.flatten = (shares tag i cs).flatten := by
  induction cs with
  | nil => rfl
  | cons c cs ih =>
    rw [flatten_cons, share_append, shares_cons, flatten_append, ih, shares_singleton]
    split
    case isTrue h => simp [h]
    case isFalse => simp

/-! ## Rearrangements -/

namespace Keeps

theorem refl (cs : List (List π)) : Keeps tag cs cs := fun _ _ => rfl

theorem trans (h : Keeps tag as bs) (h' : Keeps tag bs cs) : Keeps tag as cs := by
  intro i hi
  rw [h' i (by rw [h i hi]; exact hi), h i hi]

theorem of_perm (h : as.Perm bs) : Keeps tag as bs := by
  intro i hi
  have hp : (shares tag i as).Perm (shares tag i bs) := shares_perm h
  rcases hs : shares tag i as with _ | ⟨x, _ | ⟨y, rest⟩⟩
  · rw [hs] at hp
    exact List.perm_nil.1 hp.symm
  · rw [hs] at hp
    exact List.perm_singleton.1 hp.symm
  · simp [hs] at hi

theorem append (h : Keeps tag as bs) (h' : Keeps tag cs ds) : Keeps tag (as ++ cs) (bs ++ ds) := by
  intro i hi
  simp only [shares_append, length_append] at hi ⊢
  rw [h i (by omega), h' i (by omega)]

theorem flatten (cs : List (List π)) : Keeps tag cs [cs.flatten] := by
  intro i hi
  rw [shares_singleton, share_flatten]
  rcases hs : shares tag i cs with _ | ⟨x, _ | ⟨y, rest⟩⟩
  · simp
  · have hx : x ≠ [] := (mem_shares.1 (hs ▸ mem_singleton_self x : x ∈ shares tag i cs)).2
    simp [hx]
  · simp [hs] at hi

theorem untagged (h : ∀ p ∈ c, tag p = none) : Keeps tag [c] [] ∧ Keeps tag [] [c] := by
  have hn : ∀ i, shares tag i [c] = [] := by
    intro i
    rw [shares_singleton, if_pos (share_eq_nil fun p hp => by simp [h p hp])]
  exact ⟨fun i _ => (hn i).symm, fun i _ => hn i⟩

end Keeps

/-! ## Parcels -/

namespace Held

theorem keeps (h : Held tag whole as) (hk : Keeps tag as bs) : Held tag whole bs := by
  intro i
  rw [hk i (by rw [h i]; exact shares_singleton_length), h i]

section

variable (h : Held tag whole cs)
include h

/-- A container holds all of a parcel or nothing of it. -/
theorem share_mem (hc : c ∈ cs) (hne : share tag i c ≠ []) :
    share tag i c = share tag i (whole i) := by
  have hm : share tag i c ∈ shares tag i cs := mem_shares.2 ⟨⟨c, hc, rfl⟩, hne⟩
  rw [h i] at hm
  obtain ⟨⟨d, hd, he⟩, -⟩ := mem_shares.1 hm
  rw [List.mem_singleton.1 hd] at he
  exact he.symm

theorem exists_mem (hne : share tag i (whole i) ≠ []) :
    ∃ c ∈ cs, share tag i c = share tag i (whole i) := by
  have hm : share tag i (whole i) ∈ shares tag i cs := by
    rw [h i]
    exact mem_shares.2 ⟨⟨_, mem_singleton_self _, rfl⟩, hne⟩
  exact (mem_shares.1 hm).1

/-- Some of the containers together hold all of a parcel or nothing of it. -/
theorem share_flatten_part (hp : (as ++ bs).Perm cs) :
    share tag i as.flatten = [] ∨ share tag i as.flatten = share tag i (whole i) := by
  have hi := h.keeps (Keeps.of_perm hp.symm) i
  rw [shares_append, shares_singleton] at hi
  rw [share_flatten]
  split at hi
  · left
    rw [(List.append_eq_nil_iff.1 hi).1]
    rfl
  · rcases List.append_eq_singleton_iff.1 hi with ⟨ha, -⟩ | ⟨ha, -⟩
    · left
      rw [ha]
      rfl
    · right
      rw [ha]
      simp

theorem insert (hnew : ∀ p ∈ c, tag p = some i) (hold : share tag i (whole i) = [])
    (hsame : ∀ j, j ≠ i → whole' j = whole j) (hi : whole' i = c) : Held tag whole' (c :: cs) := by
  intro j
  rw [shares_cons, h j]
  by_cases hj : j = i
  · subst hj
    rw [hi, shares_singleton (c := whole j), if_pos hold, append_nil]
  · have hn : share tag j c = [] := share_eq_nil fun p hp he => hj (Option.some.inj ((hnew p hp).symm.trans he)).symm
    rw [shares_singleton (c := c), if_pos hn, nil_append, hsame j hj]

end

end Held

end SpkEditor
