import SpkEditor.Clock.VersionLaws
import SpkEditor.SumTree.Scan
import SpkEditor.Text.LocalEdit

/-!
# The tree of the fragments

The fragments of a buffer are the items of a tree. `FragmentSummary` is what a node knows of those below:
among other things, the join and the meet of the versions in which they were inserted.

A cursor that seeks what some version had observed (`VersionedFullOffset`) decides from these two whether
all fragments below a node count, or none of them, or whether it cannot tell. Then its position would be
`Invalid`, which is behind every target: the seek does not pass the node, but goes down. So a seek
measures right what it passes (`measures_offset`), and no cursor ever stands at an invalid position.
-/

namespace SpkEditor

open List

namespace Global

theorem observedAll_join {v g h : Global} :
    v.observedAll (g.join h) = true ↔ v.observedAll g = true ∧ v.observedAll h = true := by
  simp only [observedAll_iff, get_join, Nat.max_le, forall_and]

theorem get_new_observe (t : Lamport) (r : Nat) : (new.observe t).get r = if r = t.replicaId then t.value else 0 := by
  rw [get_observe, get_new, Nat.zero_max]

theorem observedAll_new_observe {v : Global} {t : Lamport} :
    v.observedAll (new.observe t) = true ↔ v.observed t = true := by
  rw [observedAll_iff, observed_iff]
  constructor
  · intro h
    have := h t.replicaId
    rwa [get_new_observe, if_pos rfl] at this
  · intro h r
    rw [get_new_observe]
    split
    · next hr => rwa [hr]
    · exact Nat.zero_le _

theorem observedAny_new_observe {v : Global} {t : Lamport} (h : v.observedAny (new.observe t) = true) :
    v.observed t = true := by
  obtain ⟨r, hpos, hle⟩ := observedAny_iff.mp h
  rw [get_new_observe] at hpos hle
  split at hpos
  · next hr =>
    rw [if_pos hr, hr] at hle
    exact observed_iff.mpr hle
  · exact absurd hpos (lt_irrefl 0)

theorem meetEntry_left {a : Nat} (ha : 0 < a) (b : Nat) : 0 < meetEntry a b ∧ meetEntry a b ≤ a := by
  rcases (isSeenMin_meetEntry a b).left with h | h
  · exact absurd ha (by omega)
  · exact h

end Global

namespace FragmentTree

structure FragmentTextSummary where
  visible : Nat
  deleted : Nat

structure FragmentSummary where
  text : FragmentTextSummary
  maxId : Locator
  maxVersion : Global
  minInsertionVersion : Global
  maxInsertionVersion : Global

instance : Summary FragmentSummary where
  zero := ⟨⟨0, 0⟩, Locator.min, Global.new, Global.new, Global.new⟩
  addSummary s other :=
    { text := ⟨s.text.visible + other.text.visible, s.text.deleted + other.text.deleted⟩
      maxId := other.maxId
      maxVersion := s.maxVersion.join other.maxVersion
      minInsertionVersion := s.minInsertionVersion.meet other.minInsertionVersion
      maxInsertionVersion := s.maxInsertionVersion.join other.maxInsertionVersion }

/-- `Fragment::summary`. -/
instance : Item Fragment FragmentSummary where
  summary f :=
    { text := ⟨f.visibleLen, f.deletedLen⟩
      maxId := f.id
      maxVersion := f.maxVersion
      minInsertionVersion := Global.new.observe f.timestamp
      maxInsertionVersion := Global.new.observe f.timestamp }

/-! ## Measuring what a version observed -/

inductive VersionedFullOffset where
  | offset (position : Nat)
  | invalid
  deriving DecidableEq

namespace VersionedFullOffset

/-- `full_offset`, which panics at an invalid position. -/
def fullOffset : VersionedFullOffset → Option Nat
  | offset position => some position
  | invalid => none

/-- `add_summary`, for a version. -/
def addSummary (self : VersionedFullOffset) (summary : FragmentSummary) (version : Global) : VersionedFullOffset :=
  match self with
  | offset position =>
    if version.observedAll summary.maxInsertionVersion then
      offset (position + (summary.text.visible + summary.text.deleted))
    else if version.observedAny summary.minInsertionVersion then invalid
    else offset position
  | invalid => invalid

/-- `cmp` of a target `Offset(target)` with a position. The source has no other targets. -/
def cmpOffset (target : Nat) : VersionedFullOffset → Ordering
  | offset position => compare target position
  | invalid => .lt

end VersionedFullOffset

/-- `Dimensions<VersionedFullOffset, usize>`, for a version: visible text goes along. -/
structure VersionedDimensions (version : Global) where
  offset : VersionedFullOffset
  visible : Nat

instance (version : Global) : Dimension (VersionedDimensions version) FragmentSummary where
  zero := ⟨.offset 0, 0⟩
  addSummary d summary := ⟨d.offset.addSummary summary version, d.visible + summary.text.visible⟩

/-- The target `Offset(position)` of a seek. -/
def offsetTarget {version : Global} (position : Nat) (d : VersionedDimensions version) : Ordering :=
  d.offset.cmpOffset position

instance : LawfulSummary FragmentSummary where
  add_assoc a b c := by
    simp only [Summary.addSummary, FragmentSummary.mk.injEq, add_assoc, true_and]
    exact ⟨Global.ext_get fun r => by simp only [Global.get_join, max_assoc],
      Global.ext_get fun r => by simp only [Global.get_meet, Global.meetEntry_assoc],
      Global.ext_get fun r => by simp only [Global.get_join, max_assoc]⟩
  zero_add a := by
    obtain ⟨text, maxId, maxVersion, minInsertionVersion, maxInsertionVersion⟩ := a
    simp only [Summary.addSummary, Summary.zero, zero_add, FragmentSummary.mk.injEq, true_and]
    exact ⟨Global.ext_get fun r => by simp only [Global.get_join, Global.get_new, Nat.zero_max],
      Global.ext_get fun r => by rw [Global.get_meet, Global.get_new, Global.meetEntry_comm, Global.meetEntry_zero],
      Global.ext_get fun r => by simp only [Global.get_join, Global.get_new, Nat.zero_max]⟩

section Sums

variable {version : Global} {fs : List Fragment}

theorem sumOf_snoc (fs : List Fragment) (f : Fragment) :
    (sumOf (fs ++ [f]) : FragmentSummary) = Summary.addSummary (sumOf fs) (Item.summary f) := by
  rw [sumOf_append fs (by simp)]
  exact congrArg _ (sum_singleton (Item.summary f))

theorem text_sumOf (fs : List Fragment) : (sumOf fs : FragmentSummary).text = ⟨visibleLen fs, deletedLen fs⟩ := by
  induction fs using List.reverseRecOn with
  | nil => rfl
  | append_singleton fs f ih =>
    have htext : ((sumOf (fs ++ [f]) : FragmentSummary)).text =
        ⟨(sumOf fs : FragmentSummary).text.visible + f.visibleLen, (sumOf fs : FragmentSummary).text.deleted + f.deletedLen⟩ := by
      rw [sumOf_snoc]
      rfl
    rw [htext, ih]
    simp [visibleLen, deletedLen]

theorem observedAll_sumOf :
    version.observedAll (sumOf fs : FragmentSummary).maxInsertionVersion = true ↔
      ∀ f ∈ fs, version.observed f.timestamp = true := by
  induction fs using List.reverseRecOn with
  | nil =>
    have hnil : (sumOf ([] : List Fragment) : FragmentSummary).maxInsertionVersion = Global.new := rfl
    simp [hnil, Global.observedAll_iff]
  | append_singleton fs f ih =>
    have hmax : (sumOf (fs ++ [f]) : FragmentSummary).maxInsertionVersion =
        (sumOf fs : FragmentSummary).maxInsertionVersion.join (Global.new.observe f.timestamp) := by
      rw [sumOf_snoc]
      rfl
    rw [hmax, Global.observedAll_join, ih, Global.observedAll_new_observe]
    simp [or_imp, forall_and]

/-- The meet knows every replica that inserted something, and not more than its first insertion. -/
theorem get_min_sumOf (hpos : ∀ f ∈ fs, 0 < f.timestamp.value) {f : Fragment} (hf : f ∈ fs) :
    0 < (sumOf fs : FragmentSummary).minInsertionVersion.get f.timestamp.replicaId ∧
      (sumOf fs : FragmentSummary).minInsertionVersion.get f.timestamp.replicaId ≤ f.timestamp.value := by
  induction fs using List.reverseRecOn with
  | nil => exact absurd hf (by simp)
  | append_singleton fs g ih =>
    have hmin : (sumOf (fs ++ [g]) : FragmentSummary).minInsertionVersion =
        (sumOf fs : FragmentSummary).minInsertionVersion.meet (Global.new.observe g.timestamp) := by
      rw [sumOf_snoc]
      rfl
    rw [hmin, Global.get_meet]
    rcases List.mem_append.mp hf with hf | hf
    · obtain ⟨h0, hle⟩ := ih (fun f hf => hpos f (mem_append_left _ hf)) hf
      obtain ⟨h0', hle'⟩ := Global.meetEntry_left h0 ((Global.new.observe g.timestamp).get f.timestamp.replicaId)
      exact ⟨h0', le_trans hle' hle⟩
    · obtain rfl := List.mem_singleton.mp hf
      rw [Global.meetEntry_comm, Global.get_new_observe, if_pos rfl]
      exact Global.meetEntry_left (hpos f (by simp)) _

theorem not_observed_of_observedAny (hpos : ∀ f ∈ fs, 0 < f.timestamp.value)
    (h : version.observedAny (sumOf fs : FragmentSummary).minInsertionVersion = false) {f : Fragment} (hf : f ∈ fs) :
    version.observed f.timestamp = false := by
  obtain ⟨h0, hle⟩ := get_min_sumOf hpos hf
  rw [← Bool.not_eq_true, Global.observed_iff]
  intro hobs
  rw [Global.observedAny_iff.mpr ⟨_, h0, le_trans hle hobs⟩] at h
  exact Bool.noConfusion h

end Sums

def observedLen (version : Global) (fs : List Fragment) : Nat :=
  (fs.map (SpkEditor.VersionedFullOffset version).pos).sum

section Positions

variable {version : Global} {fs : List Fragment}

theorem observedLen_append (fs gs : List Fragment) :
    observedLen version (fs ++ gs) = observedLen version fs + observedLen version gs := by
  simp [observedLen]

theorem visibleLen_append (fs gs : List Fragment) : visibleLen (fs ++ gs) = visibleLen fs + visibleLen gs := by
  simp [visibleLen]

theorem addSummary_item (n : Nat) (f : Fragment) :
    (VersionedFullOffset.offset n).addSummary (Item.summary f) version =
      .offset (n + (SpkEditor.VersionedFullOffset version).pos f) := by
  have hmin : (Item.summary f : FragmentSummary).minInsertionVersion = Global.new.observe f.timestamp := rfl
  have hmax : (Item.summary f : FragmentSummary).maxInsertionVersion = Global.new.observe f.timestamp := rfl
  have htext : (Item.summary f : FragmentSummary).text.visible + (Item.summary f : FragmentSummary).text.deleted = f.len :=
    visibleLen_add_deletedLen f
  rw [VersionedFullOffset.addSummary, hmin, hmax, htext]
  by_cases hobs : version.observed f.timestamp = true
  · simp only [Global.observedAll_new_observe.mpr hobs, if_true, SpkEditor.VersionedFullOffset, hobs]
  · rw [if_neg fun h => hobs (Global.observedAll_new_observe.mp h), if_neg fun h => hobs (Global.observedAny_new_observe h)]
    simp only [SpkEditor.VersionedFullOffset, hobs, Bool.false_eq_true, if_false, add_zero]

/-- **Along the fragments, no position is invalid.** -/
theorem cum_eq (fs : List Fragment) :
    (cum fs : VersionedDimensions version) = ⟨.offset (observedLen version fs), visibleLen fs⟩ := by
  induction fs using List.reverseRecOn with
  | nil => rfl
  | append_singleton fs f ih =>
    have hstep : (cum (fs ++ [f]) : VersionedDimensions version) =
        Dimension.addSummary (cum fs) (Item.summary f) := by
      rw [cum_append]
      rfl
    rw [hstep, ih]
    refine (congrArg (VersionedDimensions.mk · _) (addSummary_item _ f)).trans ?_
    simp [observedLen, visibleLen, Item.summary]

theorem observedLen_of_all (h : ∀ f ∈ fs, version.observed f.timestamp = true) :
    observedLen version fs = visibleLen fs + deletedLen fs := by
  induction fs with
  | nil => rfl
  | cons f fs ih =>
    have hlen : (SpkEditor.VersionedFullOffset version).pos f = f.visibleLen + f.deletedLen := by
      rw [visibleLen_add_deletedLen]
      simp only [SpkEditor.VersionedFullOffset, h f mem_cons_self, if_true]
    have ih := ih fun g hg => h g (mem_cons_of_mem _ hg)
    simp only [observedLen, visibleLen, deletedLen, map_cons, sum_cons] at ih ⊢
    omega

theorem observedLen_of_none (h : ∀ f ∈ fs, version.observed f.timestamp = false) : observedLen version fs = 0 := by
  induction fs with
  | nil => rfl
  | cons f fs ih =>
    have ih := ih fun g hg => h g (mem_cons_of_mem _ hg)
    simp only [observedLen, map_cons, sum_cons] at ih ⊢
    rw [ih]
    simp only [SpkEditor.VersionedFullOffset, h f mem_cons_self, Bool.false_eq_true, if_false]

/-- **A seek measures right what it passes**: where a version has observed some of a subtree, but not all, the
position is invalid and the subtree is not passed. -/
theorem measures_offset {t : SumTree Fragment FragmentSummary} (hpos : ∀ f ∈ t.flat, 0 < f.timestamp.value) (k : Nat)
    (bias : Bias) : Measures t (offsetTarget k : VersionedDimensions version → Ordering) bias := by
  intro h u pre post hwf hflat hpass
  have hpos : ∀ f ∈ u.flat, 0 < f.timestamp.value := fun f hf => hpos f (by rw [hflat]; simp [hf])
  have hend : (Dimension.addSummary (cum pre) u.summary : VersionedDimensions version) =
      ⟨(VersionedFullOffset.offset (observedLen version pre)).addSummary (sumOf u.flat) version,
        visibleLen pre + visibleLen u.flat⟩ := by
    rw [cum_eq, hwf.summary_eq]
    show VersionedDimensions.mk _ (_ + (sumOf u.flat : FragmentSummary).text.visible) = _
    rw [text_sumOf]
  rw [hend, cum_eq, observedLen_append, visibleLen_append]
  rw [hend] at hpass
  congr 1
  by_cases hall : version.observedAll (sumOf u.flat : FragmentSummary).maxInsertionVersion = true
  · rw [VersionedFullOffset.addSummary, if_pos hall, text_sumOf, observedLen_of_all (observedAll_sumOf.mp hall)]
  · by_cases hany : version.observedAny (sumOf u.flat : FragmentSummary).minInsertionVersion = true
    · -- some of it: the target is before the invalid position
      simp [offsetTarget, VersionedFullOffset.addSummary, if_neg hall, if_pos hany, VersionedFullOffset.cmpOffset, passes] at hpass
    · have hnone := observedLen_of_none fun f hf =>
        not_observed_of_observedAny hpos (Bool.eq_false_of_not_eq_true hany) hf
      rw [VersionedFullOffset.addSummary, if_neg hall, if_neg hany, hnone, add_zero]

theorem ordered_offset (k : Nat) (fs : List Fragment) : Ordered fs (offsetTarget k : VersionedDimensions version → Ordering) := by
  intro i j hij hj
  have hle : observedLen version (fs.take i) ≤ observedLen version (fs.take j) := by
    obtain ⟨m, rfl⟩ := Nat.exists_eq_add_of_le hij
    rw [take_add, observedLen_append]
    exact Nat.le_add_right _ _
  simp only [cum_eq, offsetTarget, VersionedFullOffset.cmpOffset, Nat.compare_eq_gt, Nat.compare_eq_lt]
  omega

/-! ## Against a list -/

def cursorAt (version : Global) (fs : List Fragment) (i : Nat) : Cursor :=
  ⟨(observedLen version (fs.take i), visibleLen (fs.take i)), fs.drop i⟩

theorem cursorAt_stop (fs : List Fragment) (i : Nat) :
    (cursorAt version fs i).stop (SpkEditor.VersionedFullOffset version) = observedLen version (fs.take (i + 1)) := by
  rw [take_add_one, ← List.head?_drop, observedLen_append, cursorAt, Cursor.stop]
  cases fs.drop i with
  | nil => rfl
  | cons f rest => simp [observedLen]

theorem cursorAt_next (fs : List Fragment) {i : Nat} (hi : i ≤ fs.length) :
    (cursorAt version fs i).next (SpkEditor.VersionedFullOffset version) = cursorAt version fs (min (i + 1) fs.length) := by
  rcases lt_or_ge i fs.length with hlt | hge
  · rw [min_eq_left hlt, cursorAt, cursorAt, Cursor.next, drop_eq_getElem_cons hlt, take_add_one,
      List.getElem?_eq_getElem hlt, observedLen_append, visibleLen_append]
    simp [observedLen, visibleLen, SpkEditor.VersionedFullOffset]
  · rw [min_eq_right (Nat.le_succ_of_le hge), le_antisymm hi hge, cursorAt, drop_length]
    rfl

theorem passes_offset (k n visible : Nat) (bias : Bias) :
    passes (offsetTarget k (⟨.offset n, visible⟩ : VersionedDimensions version)) bias = Cursor.passes k bias n := by
  rw [passes, Cursor.passes, offsetTarget, VersionedFullOffset.cmpOffset]
  rcases Nat.lt_trichotomy k n with h | h | h
  · rw [Nat.compare_eq_lt.mpr h]
    cases bias <;> simp <;> omega
  · rw [Nat.compare_eq_eq.mpr h]
    cases bias <;> simp [h]
  · rw [Nat.compare_eq_gt.mpr h]
    cases bias <;> simp [h]

theorem sliceFrom_eq (k : Nat) (bias : Bias) (d : VersionedDimensions version) (n : Nat) (hd : d.offset = .offset n)
    (fs : List Fragment) :
    Cursor.sliceFrom (SpkEditor.VersionedFullOffset version) k bias (n, d.visible) fs =
      (fs.take (passedOver (offsetTarget k) bias d fs),
        ⟨(n + observedLen version (fs.take (passedOver (offsetTarget k) bias d fs)),
          d.visible + visibleLen (fs.take (passedOver (offsetTarget k) bias d fs))),
          fs.drop (passedOver (offsetTarget k) bias d fs)⟩) := by
  induction fs generalizing d n with
  | nil => rfl
  | cons f fs ih =>
    obtain ⟨offset, visible⟩ := d
    obtain rfl : offset = .offset n := hd
    have hend : (Dimension.addSummary (⟨.offset n, visible⟩ : VersionedDimensions version) (Item.summary f)) =
        ⟨.offset (n + (SpkEditor.VersionedFullOffset version).pos f), visible + f.visibleLen⟩ :=
      congrArg (VersionedDimensions.mk · _) (addSummary_item n f)
    rw [Cursor.sliceFrom, passedOver]
    simp only [hend, passes_offset]
    by_cases hpass : Cursor.passes k bias (n + (SpkEditor.VersionedFullOffset version).pos f) = true
    · rw [if_pos hpass, if_pos hpass, take_succ_cons, drop_succ_cons]
      have hrest := ih ⟨.offset (n + (SpkEditor.VersionedFullOffset version).pos f), visible + f.visibleLen⟩ _ rfl
      have haux : (SpkEditor.VersionedFullOffset version).aux f = f.visibleLen := rfl
      rw [haux, hrest]
      simp [observedLen, visibleLen, add_assoc]
    · rw [if_neg hpass, if_neg hpass]
      simp [observedLen, visibleLen]

/-- **A slice of the list goes to where the tree is scanned to.** -/
theorem slice_eq (k : Nat) (bias : Bias) (fs : List Fragment) {i : Nat} :
    (cursorAt version fs i).slice (SpkEditor.VersionedFullOffset version) k bias =
      ((fs.take (scan fs (offsetTarget k : VersionedDimensions version → Ordering) bias i)).drop i,
        cursorAt version fs (scan fs (offsetTarget k : VersionedDimensions version → Ordering) bias i)) := by
  have hfrom := sliceFrom_eq k bias (cum (fs.take i) : VersionedDimensions version) (observedLen version (fs.take i))
    (by rw [cum_eq]) (fs.drop i)
  rw [Cursor.slice, cursorAt]
  simp only [cum_eq] at hfrom
  rw [hfrom, scan, cum_eq, cursorAt, drop_take, Nat.add_sub_cancel_left, take_add, drop_drop,
    observedLen_append]
  simp [visibleLen]

end Positions

end FragmentTree

end SpkEditor
