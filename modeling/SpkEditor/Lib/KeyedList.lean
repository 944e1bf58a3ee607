import Mathlib.Algebra.Order.Ring.Nat
import Mathlib.Data.List.Sort
import Mathlib.Data.Prod.Lex
import Mathlib.Order.Basic

/-!
# Lists sorted by a key

An ordered collection of keyed items, as a list in strictly increasing key order,
with the one mutation everything here is built on: insert a batch of items, each
replacing whatever was filed under its key.

`mem_upsert` and `upsert_sorted` are the whole interface: after a batch, the
collection is still sorted, and holds the batch plus every old item whose key the
batch did not mention.

A batch that also takes items out is a list of changes, each of a key and what is to
be filed there. In key order they are merged in one pass (`amend`), and that is the
same as to make them one after another, in any order, in the map that the list stands
for (`lookup_amend`, `taken_perm`).
-/

namespace SpkEditor.KeyedList

open List Option

variable {α κ : Type} [LinearOrder κ] (key : α → κ) {items l : List α} {a : α}

/-- Strictly increasing in key. -/
def Sorted (l : List α) : Prop := l.Pairwise (fun a b => key a < key b)

/-- The items of `l` left once everything below `k` is passed and an item filed
under `k` itself is dropped. -/
def above (k : κ) (l : List α) : List α :=
  match l.dropWhile (fun a => key a < k) with
  | [] => []
  | a :: rest => if key a = k then rest else a :: rest

/-- Merge a batch, already in key order, into a sorted list. -/
def upsertSorted : List α → List α → List α
  | old, [] => old
  | old, item :: items =>
    old.takeWhile (fun a => key a < key item) ++
      item :: upsertSorted (above key (key item) old) items

def sortByKey (items : List α) : List α :=
  items.insertionSort (fun a b => key a ≤ key b)

/-- Insert a batch of items, each replacing the old item with its key. -/
def upsert (old items : List α) : List α := upsertSorted key old (sortByKey key items)

variable {key}

theorem Sorted.tail (h : Sorted key (a :: l)) : Sorted key l :=
  (List.pairwise_cons.mp h).2

theorem Sorted.eq_of_key (h : Sorted key l) {b : α}
    (ha : a ∈ l) (hb : b ∈ l) (hk : key a = key b) : a = b := by
  induction l with
  | nil => simp at ha
  | cons c l ih =>
    obtain ⟨hc, hl⟩ := List.pairwise_cons.mp h
    rcases List.mem_cons.mp ha with hac | ha
    · rcases List.mem_cons.mp hb with hbc | hb
      · rw [hac, hbc]
      · exact absurd hk (ne_of_lt (hac ▸ hc b hb))
    · rcases List.mem_cons.mp hb with hbc | hb
      · exact absurd hk (ne_of_gt (hbc ▸ hc a ha))
      · exact ih hl ha hb

theorem mem_dropWhile_lt {k : κ} (h : Sorted key l) :
    a ∈ l.dropWhile (fun a => decide (key a < k)) ↔ a ∈ l ∧ k ≤ key a := by
  induction l with
  | nil => simp
  | cons b l ih =>
    obtain ⟨hb, hl⟩ := List.pairwise_cons.mp h
    by_cases hbk : key b < k
    · rw [dropWhile_cons_of_pos (by simpa using hbk), ih hl]
      constructor
      · rintro ⟨ha, hk⟩; exact ⟨mem_cons_of_mem _ ha, hk⟩
      · rintro ⟨ha, hk⟩
        rcases List.mem_cons.mp ha with rfl | ha
        · exact absurd hbk (not_lt.mpr hk)
        · exact ⟨ha, hk⟩
    · rw [dropWhile_cons_of_neg (by simpa using hbk)]
      constructor
      · intro ha
        refine ⟨ha, ?_⟩
        rcases List.mem_cons.mp ha with rfl | ha'
        · exact not_lt.mp hbk
        · exact le_trans (not_lt.mp hbk) (le_of_lt (hb a ha'))
      · exact fun h => h.1

theorem mem_takeWhile_lt {k : κ} (h : Sorted key l) :
    a ∈ l.takeWhile (fun a => decide (key a < k)) ↔ a ∈ l ∧ key a < k := by
  induction l with
  | nil => simp
  | cons b l ih =>
    obtain ⟨hb, hl⟩ := List.pairwise_cons.mp h
    by_cases hbk : key b < k
    · rw [takeWhile_cons_of_pos (by simpa using hbk), mem_cons, ih hl, mem_cons]
      constructor
      · rintro (rfl | ⟨ha, hk⟩)
        · exact ⟨.inl rfl, hbk⟩
        · exact ⟨.inr ha, hk⟩
      · rintro ⟨rfl | ha, hk⟩
        · exact .inl rfl
        · exact .inr ⟨ha, hk⟩
    · rw [takeWhile_cons_of_neg (by simpa using hbk)]
      constructor
      · intro ha; simp at ha
      · rintro ⟨ha, hk⟩
        rcases List.mem_cons.mp ha with rfl | ha'
        · exact absurd hk hbk
        · exact absurd (lt_of_le_of_lt (not_lt.mp hbk) (hb a ha')) (not_lt.mpr (le_of_lt hk))

theorem drop_length_takeWhile (p : α → Bool) (l : List α) : l.drop (l.takeWhile p).length = l.dropWhile p := by
  nth_rewrite 2 [← takeWhile_append_dropWhile (p := p) (l := l)]
  exact drop_left

/-- A cursor that goes on while `p` holds stops for good, if `p` never comes back. -/
theorem mem_takeWhile_of_antitone {p : α → Bool}
    (h : l.Pairwise (fun a b => p b = true → p a = true)) :
    a ∈ l.takeWhile p ↔ a ∈ l ∧ p a = true := by
  induction l with
  | nil => simp
  | cons b l ih =>
    obtain ⟨hb, hl⟩ := List.pairwise_cons.mp h
    by_cases hpb : p b = true
    · rw [takeWhile_cons_of_pos hpb, mem_cons, mem_cons, ih hl]
      constructor
      · rintro (rfl | ⟨h1, h2⟩)
        · exact ⟨.inl rfl, hpb⟩
        · exact ⟨.inr h1, h2⟩
      · rintro ⟨rfl | h1, h2⟩
        · exact .inl rfl
        · exact .inr ⟨h1, h2⟩
    · rw [takeWhile_cons_of_neg hpb]
      refine ⟨fun h => absurd h (by simp), ?_⟩
      rintro ⟨hmem, hpa⟩
      rcases List.mem_cons.mp hmem with rfl | hmem
      · exact absurd hpa hpb
      · exact absurd (hb a hmem hpa) hpb

theorem sorted_dropWhile {p : α → Bool} (h : Sorted key l) :
    Sorted key (l.dropWhile p) := List.Pairwise.sublist (dropWhile_sublist p) h

/-- Under a key in two parts, the items of one first part stand together, from the least key that
begins with it on. -/
theorem mem_group {β γ : Type} [LinearOrder β] [LinearOrder γ] {first : α → β} {second : α → γ}
    (h : Sorted (fun a => toLex (first a, second a)) l) {b : β} {low : γ} (hlow : ∀ a, low ≤ second a) :
    a ∈ (l.dropWhile fun a => toLex (first a, second a) < toLex (b, low)).takeWhile (fun a => first a = b) ↔
      a ∈ l ∧ first a = b := by
  have hfrom : ∀ a, toLex (b, low) ≤ toLex (first a, second a) ↔ b ≤ first a := by
    intro a
    rw [Prod.Lex.toLex_le_toLex]
    constructor
    · rintro (h | ⟨h, -⟩)
      · exact le_of_lt h
      · exact le_of_eq h
    · intro h
      rcases lt_or_eq_of_le h with h | h
      · exact Or.inl h
      · exact Or.inr ⟨h, hlow a⟩
  have hdrop := fun x => mem_dropWhile_lt (k := toLex (b, low)) h (a := x)
  have hanti : (l.dropWhile fun a => decide (toLex (first a, second a) < toLex (b, low))).Pairwise
      (fun x y => decide (first y = b) = true → decide (first x = b) = true) := by
    refine List.Pairwise.imp_of_mem ?_ (sorted_dropWhile h)
    intro x y hx hy hxy hyb
    have hxb := (hfrom x).mp ((hdrop x).mp hx).2
    rw [Prod.Lex.toLex_lt_toLex] at hxy
    simp only [decide_eq_true_eq] at hyb ⊢
    rcases hxy with hxy | ⟨hxy, -⟩
    · exact absurd hxb (not_le.mpr (hyb ▸ hxy))
    · exact hxy.trans hyb
  rw [mem_takeWhile_of_antitone hanti, hdrop, hfrom]
  simp only [decide_eq_true_eq, and_assoc, and_congr_right_iff, and_iff_right_iff_imp]
  intro _ he
  exact le_of_eq he.symm

theorem mem_above {k : κ} (h : Sorted key l) : a ∈ above key k l ↔ a ∈ l ∧ k < key a := by
  have hd := sorted_dropWhile (p := fun a => decide (key a < k)) h
  have hmem := fun a => mem_dropWhile_lt (k := k) h (a := a)
  unfold above
  split
  · rename_i heq
    rw [heq] at hmem
    constructor
    · intro ha; simp at ha
    · rintro ⟨ha, hk⟩; exact absurd ((hmem a).mpr ⟨ha, le_of_lt hk⟩) (by simp)
  · rename_i b rest heq
    rw [heq] at hd hmem
    obtain ⟨hb, _⟩ := List.pairwise_cons.mp hd
    have hbk : k ≤ key b := ((hmem b).mp (mem_cons_self ..)).2
    split
    · rename_i hkb
      constructor
      · intro ha
        exact ⟨((hmem a).mp (mem_cons_of_mem _ ha)).1, hkb ▸ hb a ha⟩
      · rintro ⟨ha, hk⟩
        rcases List.mem_cons.mp ((hmem a).mpr ⟨ha, le_of_lt hk⟩) with rfl | ha'
        · exact absurd hkb (ne_of_gt hk)
        · exact ha'
    · rename_i hkb
      rw [hmem a]
      constructor
      · rintro ⟨ha, hk⟩
        refine ⟨ha, lt_of_le_of_ne hk (fun he => hkb ?_)⟩
        rcases List.mem_cons.mp ((hmem a).mpr ⟨ha, hk⟩) with rfl | ha'
        · exact he.symm
        · exact absurd (lt_of_le_of_lt hbk (hb a ha')) (by rw [he]; exact lt_irrefl _)
      · rintro ⟨ha, hk⟩; exact ⟨ha, le_of_lt hk⟩

theorem sorted_above {k : κ} (h : Sorted key l) : Sorted key (above key k l) := by
  have hd := sorted_dropWhile (p := fun a => decide (key a < k)) h
  unfold above
  split
  · exact List.Pairwise.nil
  · rename_i heq
    rw [heq] at hd
    split
    · exact hd.tail
    · exact hd

theorem upsertSorted_spec : ∀ {items old : List α}, Sorted key old → Sorted key items →
    Sorted key (upsertSorted key old items) ∧ ∀ a, a ∈ upsertSorted key old items ↔
        a ∈ items ∨ (a ∈ old ∧ key a ∉ items.map key)
  | [], old, ho, _ => ⟨ho, by simp [upsertSorted]⟩
  | item :: items, old, ho, hi => by
      obtain ⟨hlt, hi'⟩ := List.pairwise_cons.mp hi
      obtain ⟨ihs, ihm⟩ := upsertSorted_spec (sorted_above (k := key item) ho) hi'
      have hlow : ∀ a ∈ upsertSorted key (above key (key item) old) items, key item < key a := by
        intro a ha
        rcases (ihm a).mp ha with h | ⟨h, _⟩
        · exact hlt a h
        · exact ((mem_above ho).mp h).2
      refine ⟨?_, ?_⟩
      · refine List.pairwise_append.mpr ⟨List.Pairwise.sublist (takeWhile_sublist _) ho,
          List.pairwise_cons.mpr ⟨hlow, ihs⟩, ?_⟩
        intro a ha b hb
        have hai := ((mem_takeWhile_lt ho).mp ha).2
        rcases List.mem_cons.mp hb with rfl | hb
        · exact hai
        · exact lt_trans hai (hlow b hb)
      · intro a
        simp only [upsertSorted, mem_append, mem_cons, map_cons, not_or,
          mem_takeWhile_lt ho, ihm a, mem_above ho]
        constructor
        · rintro (⟨ha, hk⟩ | rfl | ha | ⟨⟨ha, hk⟩, hn⟩)
          · refine .inr ⟨ha, ne_of_lt hk, ?_⟩
            intro hmem
            obtain ⟨b, hb, hbk⟩ := List.mem_map.mp hmem
            exact absurd (hlt b hb) (by rw [hbk]; exact not_lt.mpr (le_of_lt hk))
          · exact .inl (.inl rfl)
          · exact .inl (.inr ha)
          · exact .inr ⟨ha, ne_of_gt hk, hn⟩
        · rintro ((rfl | ha) | ⟨ha, hne, hn⟩)
          · exact .inr (.inl rfl)
          · exact .inr (.inr (.inl ha))
          · rcases lt_or_gt_of_ne hne with hk | hk
            · exact .inl ⟨ha, hk⟩
            · exact .inr (.inr (.inr ⟨⟨ha, hk⟩, hn⟩))

theorem mem_sortByKey : a ∈ sortByKey key items ↔ a ∈ items :=
  mem_insertionSort _

theorem sortByKey_map_mem {k : κ} : k ∈ (sortByKey key items).map key ↔ k ∈ items.map key := by
  simp only [List.mem_map, mem_sortByKey]

theorem sortByKey_pairwise (items : List α) :
    (sortByKey key items).Pairwise (fun a b => key a ≤ key b) := by
  exact pairwise_insertionSort _ items

theorem sortByKey_sorted (h : (items.map key).Nodup) : Sorted key (sortByKey key items) := by
  have hle : (sortByKey key items).Pairwise (fun a b => key a ≤ key b) := sortByKey_pairwise items
  have hnd : ((sortByKey key items).map key).Nodup :=
    (((perm_insertionSort _ items).map key).nodup_iff).mpr h
  have hne : (sortByKey key items).Pairwise (fun a b => key a ≠ key b) :=
    List.pairwise_map.mp hnd
  exact (hle.and hne).imp (fun h => lt_of_le_of_ne h.1 h.2)

section

variable {old : List α} (ho : Sorted key old) (hi : (items.map key).Nodup)
include ho hi

theorem upsert_sorted :
    Sorted key (upsert key old items) := (upsertSorted_spec ho (sortByKey_sorted hi)).1

/-- **What a batch leaves behind**: the batch, and every old item under another key. -/
theorem mem_upsert : a ∈ upsert key old items ↔ a ∈ items ∨ (a ∈ old ∧ key a ∉ items.map key) := by
  rw [upsert, (upsertSorted_spec ho (sortByKey_sorted hi)).2, mem_sortByKey, sortByKey_map_mem]

end

theorem Sorted.le_getLast (h : Sorted key l) {b : α} (hb : l.getLast? = some b)
    (ha : a ∈ l) : key a ≤ key b := by
  obtain ⟨m, rfl⟩ := List.getLast?_eq_some_iff.mp hb
  rcases List.mem_append.mp ha with ha | ha
  · exact le_of_lt ((List.pairwise_append.mp h).2.2 a ha b (by simp))
  · rw [List.mem_singleton.mp ha]

/-- The last item of those that pass a test, if the test is one that smaller items pass. -/
theorem getLast_takeWhile {p : α → Bool} (h : Sorted key l)
    (hp : ∀ a ∈ l, ∀ b ∈ l, key a < key b → p b = true → p a = true) (ha : a ∈ l)
    (hpa : p a = true) (hmax : ∀ b ∈ l, p b = true → key b ≤ key a) :
    (l.takeWhile p).getLast? = some a := by
  have hanti : l.Pairwise (fun x y => p y = true → p x = true) :=
    List.Pairwise.imp_of_mem (fun hx hy hlt hpy => hp _ hx _ hy hlt hpy) h
  have hmem : a ∈ l.takeWhile p := (mem_takeWhile_of_antitone hanti).mpr ⟨ha, hpa⟩
  obtain ⟨b, hb⟩ : ∃ b, (l.takeWhile p).getLast? = some b := by
    rw [← isSome_iff_exists, getLast?_isSome]
    exact ne_nil_of_mem hmem
  have hbmem := (mem_takeWhile_of_antitone hanti).mp (mem_of_getLast? hb)
  have hsort : Sorted key (l.takeWhile p) := List.Pairwise.sublist (takeWhile_sublist p) h
  have heq : key a = key b := le_antisymm (hsort.le_getLast hb hmem) (hmax b hbmem.1 hbmem.2)
  rw [hb, h.eq_of_key ha hbmem.1 heq]

theorem Sorted.ext {m : List α} (hl : Sorted key l) (hm : Sorted key m)
    (h : ∀ a, a ∈ l ↔ a ∈ m) : l = m := by
  exact List.Pairwise.eq_of_mem_iff hl hm (fun a => h a)

/-! ## Changes -/

/-- What is filed under a key. -/
def lookup (key : α → κ) (l : List α) (k : κ) : Option α := l.find? fun a => decide (key a = k)

/-- Merge a batch of changes in key order. -/
def amend (key : α → κ) : List α → List (κ × Option α) → List α
  | old, [] => old
  | old, (k, new) :: changes =>
    old.takeWhile (fun a => key a < k) ++ (new.toList ++ amend key (above key k old) changes)

/-- What the changes take out. -/
def taken (key : α → κ) : List α → List (κ × Option α) → List α
  | _, [] => []
  | old, (k, _) :: changes =>
    ((old.dropWhile fun a => key a < k).head?.filter fun a => key a = k).toList ++
      taken key (above key k old) changes

def amendMap (m : κ → Option α) (changes : List (κ × Option α)) : κ → Option α :=
  changes.foldl (fun m change => Function.update m change.1 change.2) m

/-- What they replace or take out there, one after another. -/
def displaced : (κ → Option α) → List (κ × Option α) → List α
  | _, [] => []
  | m, (k, new) :: changes => (m k).toList ++ displaced (Function.update m k new) changes

def FiledUnder (key : α → κ) (changes : List (κ × Option α)) : Prop := ∀ k a, (k, some a) ∈ changes → key a = k

section Changes

variable {old l m : List α} {changes changes' : List (κ × Option α)} {k : κ} {a : α} {f : κ → Option α}

theorem Sorted.lookup_iff (h : Sorted key l) : lookup key l k = some a ↔ a ∈ l ∧ key a = k := by
  constructor
  · intro ha
    exact ⟨mem_of_find?_eq_some ha, by simpa using find?_some ha⟩
  · rintro ⟨ha, rfl⟩
    cases hb : lookup key l (key a) with
    | none => exact absurd (List.find?_eq_none.mp hb a ha) (by simp)
    | some b =>
      have hkey : key b = key a := by simpa using find?_some hb
      rw [h.eq_of_key (mem_of_find?_eq_some hb) ha hkey]

theorem Sorted.ext_lookup (hl : Sorted key l) (hm : Sorted key m) (h : ∀ k, lookup key l k = lookup key m k) : l = m := by
  refine hl.ext hm fun a => ?_
  have hmem := h (key a)
  constructor
  · intro ha
    rw [hl.lookup_iff.mpr ⟨ha, rfl⟩] at hmem
    exact (hm.lookup_iff.mp hmem.symm).1
  · intro ha
    rw [hm.lookup_iff.mpr ⟨ha, rfl⟩] at hmem
    exact (hl.lookup_iff.mp hmem).1

theorem amendMap_of_not_mem (h : k ∉ changes.map Prod.fst) : amendMap f changes k = f k := by
  induction changes generalizing f with
  | nil => rfl
  | cons c changes ih =>
    rw [map_cons, mem_cons, not_or] at h
    exact (ih h.2).trans (Function.update_of_ne h.1 _ _)

theorem amendMap_of_mem {o : Option α} (hnd : (changes.map Prod.fst).Nodup) (h : (k, o) ∈ changes) :
    amendMap f changes k = o := by
  induction changes generalizing f with
  | nil => exact nomatch h
  | cons c changes ih =>
    obtain ⟨hc, hnd⟩ := List.nodup_cons.mp hnd
    rcases List.mem_cons.mp h with rfl | h
    · exact (amendMap_of_not_mem hc).trans (Function.update_self ..)
    · exact ih hnd h

theorem amendMap_perm (hp : changes.Perm changes') (hnd : (changes.map Prod.fst).Nodup) (k : κ) :
    amendMap f changes k = amendMap f changes' k := by
  have hnd' := ((hp.map Prod.fst).nodup_iff).mp hnd
  by_cases hk : k ∈ changes.map Prod.fst
  · obtain ⟨⟨k', o⟩, hc, rfl⟩ := List.mem_map.mp hk
    rw [amendMap_of_mem hnd hc, amendMap_of_mem hnd' (hp.mem_iff.mp hc)]
  · rw [amendMap_of_not_mem hk, amendMap_of_not_mem fun h => hk ((hp.map Prod.fst).mem_iff.mpr h)]

theorem displaced_eq (hnd : (changes.map Prod.fst).Nodup) :
    displaced f changes = changes.flatMap fun change => (f change.1).toList := by
  induction changes generalizing f with
  | nil => rfl
  | cons c changes ih =>
    obtain ⟨hc, hnd⟩ := List.nodup_cons.mp hnd
    rw [displaced, ih hnd, flatMap_cons]
    refine congrArg _ (flatMap_congr fun d hd => ?_)
    rw [Function.update_of_ne fun heq => hc (List.mem_map.mpr ⟨d, hd, heq⟩)]

section

variable (ho : Sorted key old) (hf : FiledUnder key changes)
  (hc : changes.Pairwise fun c d => c.1 < d.1)
include ho hf hc

/-- What merging changes leaves behind, and that it is still sorted. -/
theorem amend_spec : Sorted key (amend key old changes) ∧ ∀ a, a ∈ amend key old changes ↔
      (key a, some a) ∈ changes ∨ (a ∈ old ∧ key a ∉ changes.map Prod.fst) := by
  induction changes generalizing old with
  | nil => exact ⟨ho, by simp [amend]⟩
  | cons c changes ih =>
    obtain ⟨k, new⟩ := c
    obtain ⟨hlt, hc⟩ := List.pairwise_cons.mp hc
    obtain ⟨ihs, ihm⟩ := ih (sorted_above (k := k) ho) (fun k a h => hf k a (mem_cons_of_mem _ h)) hc
    have hnew : ∀ a ∈ new.toList, key a = k := fun a ha => by
      rw [mem_toList] at ha
      exact hf k a (by rw [Option.mem_def.mp ha]; exact mem_cons_self)
    have hlow : ∀ a ∈ amend key (above key k old) changes, k < key a := by
      intro a ha
      rcases (ihm a).mp ha with h | ⟨h, _⟩
      · exact hlt _ h
      · exact ((mem_above ho).mp h).2
    refine ⟨?_, fun a => ?_⟩
    · refine List.pairwise_append.mpr ⟨ho.sublist (takeWhile_sublist _), List.pairwise_append.mpr ⟨?_, ihs, ?_⟩, ?_⟩
      · cases new with
        | none => exact List.Pairwise.nil
        | some a => exact pairwise_singleton _ _
      · intro a ha b hb
        rw [hnew a ha]
        exact hlow b hb
      · intro a ha b hb
        have hak := ((mem_takeWhile_lt ho).mp ha).2
        rcases List.mem_append.mp hb with hb | hb
        · rwa [hnew b hb]
        · exact lt_trans hak (hlow b hb)
    · rw [amend, mem_append, mem_append, mem_takeWhile_lt ho, ihm, mem_above ho, map_cons]
      simp only [mem_cons, Prod.mk.injEq, mem_toList, not_or]
      constructor
      · rintro (⟨ha, hk⟩ | ha | ha | ⟨⟨ha, hk⟩, hn⟩)
        · refine .inr ⟨ha, ne_of_lt hk, fun hmem => ?_⟩
          obtain ⟨d, hd, hdk⟩ := List.mem_map.mp hmem
          exact absurd (hlt d hd) (by rw [hdk]; exact not_lt.mpr (le_of_lt hk))
        · exact .inl (.inl ⟨hnew a (by rw [ha]; exact mem_singleton_self a), ha.symm⟩)
        · exact .inl (.inr ha)
        · exact .inr ⟨ha, ne_of_gt hk, hn⟩
      · rintro ((⟨rfl, rfl⟩ | ha) | ⟨ha, hne, hn⟩)
        · exact .inr (.inl rfl)
        · exact .inr (.inr (.inl ha))
        · rcases lt_or_gt_of_ne hne with hk | hk
          · exact .inl ⟨ha, hk⟩
          · exact .inr (.inr (.inr ⟨⟨ha, hk⟩, hn⟩))

/-- **Changes merged in key order are the changes made in the map.** -/
theorem lookup_amend (k : κ) :
    lookup key (amend key old changes) k = amendMap (lookup key old) changes k := by
  obtain ⟨hs, hm⟩ := amend_spec ho hf hc
  have hnd : (changes.map Prod.fst).Nodup := List.pairwise_map.mpr (hc.imp fun h => ne_of_lt h)
  refine ext fun a => ?_
  rw [hs.lookup_iff, hm]
  by_cases hk : k ∈ changes.map Prod.fst
  · obtain ⟨⟨k, o⟩, hmem, rfl⟩ := List.mem_map.mp hk
    rw [amendMap_of_mem hnd hmem]
    constructor
    · rintro ⟨h | ⟨-, hn⟩, rfl⟩
      · rw [← amendMap_of_mem (f := lookup key old) hnd hmem, amendMap_of_mem hnd h]
      · exact absurd hk hn
    · rintro rfl
      have hka := hf k a hmem
      exact ⟨.inl (by rwa [hka]), hka⟩
  · rw [amendMap_of_not_mem hk, ho.lookup_iff]
    constructor
    · rintro ⟨h | ⟨ha, -⟩, rfl⟩
      · exact absurd (List.mem_map.mpr ⟨_, h, rfl⟩) hk
      · exact ⟨ha, rfl⟩
    · rintro ⟨ha, rfl⟩
      exact ⟨.inr ⟨ha, hk⟩, rfl⟩

end

theorem Sorted.head?_dropWhile (h : Sorted key l) (k : κ) :
    ((l.dropWhile fun a => decide (key a < k)).head?.filter fun a => decide (key a = k)) = lookup key l k := by
  refine Option.ext fun a => ?_
  rw [Option.filter_eq_some_iff, h.lookup_iff, decide_eq_true_eq]
  refine and_congr_left fun hka => ?_
  constructor
  · intro ha
    exact ((mem_dropWhile_lt h).mp (mem_of_mem_head? ha)).1
  · intro ha
    have hmem := (mem_dropWhile_lt h).mpr ⟨ha, le_of_eq hka.symm⟩
    obtain ⟨b, rest, hb⟩ := exists_cons_of_ne_nil (ne_nil_of_mem hmem)
    have hd := sorted_dropWhile (p := fun a => decide (key a < k)) h
    have hbk : k ≤ key b := ((mem_dropWhile_lt h).mp (by rw [hb]; exact mem_cons_self)).2
    rw [hb] at hmem hd
    rcases List.mem_cons.mp hmem with rfl | hmem
    · rw [hb]
      rfl
    · exact absurd (lt_of_le_of_lt hbk ((List.pairwise_cons.mp hd).1 a hmem)) (by rw [hka]; exact lt_irrefl _)

theorem lookup_above (h : Sorted key l) {k k' : κ} (hk : k < k') : lookup key (above key k l) k' = lookup key l k' := by
  refine ext fun a => ?_
  rw [(sorted_above h).lookup_iff, h.lookup_iff, mem_above h]
  constructor
  · rintro ⟨⟨ha, -⟩, rfl⟩
    exact ⟨ha, rfl⟩
  · rintro ⟨ha, rfl⟩
    exact ⟨⟨ha, hk⟩, rfl⟩

section

variable (ho : Sorted key old) (hc : changes.Pairwise fun c d => c.1 < d.1)
include ho hc

theorem taken_eq :
    taken key old changes = changes.flatMap fun change => (lookup key old change.1).toList := by
  induction changes generalizing old with
  | nil => rfl
  | cons c changes ih =>
    obtain ⟨hlt, hc⟩ := List.pairwise_cons.mp hc
    rw [taken, ho.head?_dropWhile, ih (sorted_above ho) hc, flatMap_cons]
    exact congrArg _ (flatMap_congr fun d hd => by rw [lookup_above ho (hlt d hd)])

/-- **What is taken out is what the changes displace in the map**, in key order. -/
theorem taken_sorted : Sorted key (taken key old changes) := by
  have hkey : ∀ k, ∀ a ∈ (lookup key old k).toList, key a = k := fun k a ha =>
    (ho.lookup_iff.mp (Option.mem_toList.mp ha)).2
  rw [taken_eq ho hc, Sorted, pairwise_flatMap]
  refine ⟨fun c _ => ?_, hc.imp fun {c d} hcd a ha b hb => ?_⟩
  · cases lookup key old c.1 with
    | none => exact List.Pairwise.nil
    | some a => exact pairwise_singleton _ _
  · rwa [hkey _ a ha, hkey _ b hb]

theorem taken_perm (hp : changes.Perm changes') :
    (taken key old changes).Perm (displaced (lookup key old) changes') := by
  have hnd : (changes.map Prod.fst).Nodup := List.pairwise_map.mpr (hc.imp fun h => ne_of_lt h)
  rw [taken_eq ho hc, displaced_eq (((hp.map Prod.fst).nodup_iff).mp hnd)]
  exact hp.flatMap_right _

end

theorem put_sublist_amend (old : List α) (changes : List (κ × Option α)) :
    (changes.filterMap Prod.snd).Sublist (amend key old changes) := by
  induction changes generalizing old with
  | nil => exact nil_sublist _
  | cons c changes ih =>
    obtain ⟨k, new⟩ := c
    refine .trans ?_ (sublist_append_right _ _)
    cases new with
    | none => exact ih _
    | some a => exact (ih _).cons_cons a

end Changes

end SpkEditor.KeyedList
