import SpkEditor.Diff.Staging

/-!
# Exact diffs

A diff is exact if both texts are the same between its hunks. Positions of the buffer then have
positions of the base text that correspond to them, as long as they are outside of the hunks; a
position inside of one, or at a deletion, is taken to either end of it.
-/

namespace SpkEditor.Staging

open List

/-- The next hunk of a diff, when everything before `b` and `t` has been gone through. -/
structure HunkAt (base text : Bytes) (b t : Nat) (h : Hunk) : Prop where
  start : t ≤ h.buffer.start
  base_start : h.base.start = b + (h.buffer.start - t)
  same : textIn base ⟨b, h.base.start⟩ = textIn text ⟨t, h.buffer.start⟩
  buffer_le : h.buffer.start ≤ h.buffer.stop
  base_le : h.base.start ≤ h.base.stop
  buffer_stop : h.buffer.stop ≤ text.length
  base_stop : h.base.stop ≤ base.length
  ne : h.buffer.start < h.buffer.stop ∨ h.base.start < h.base.stop

/-- The rest of an exact diff. Between two hunks there is some text that they have in common. -/
def ExactFrom (base text : Bytes) : Nat → Nat → List Hunk → Prop
  | b, t, [] => base.drop b = text.drop t
  | b, t, h :: hunks => HunkAt base text b t h ∧
      (∀ h' ∈ hunks.head?, h.buffer.stop < h'.buffer.start) ∧
      ExactFrom base text h.base.stop h.buffer.stop hunks

structure ExactDiff (base text : Bytes) (hunks : List Hunk) : Prop where
  exact : ExactFrom base text 0 0 hunks
  starts : ∀ h ∈ hunks, (pointAt text h.buffer.start).column = 0 ∨ h.buffer.start = text.length
  stops : ∀ h ∈ hunks, (pointAt text h.buffer.stop).column = 0 ∨ h.buffer.stop = text.length

instance decidableHunkAt (base text : Bytes) (b t : Nat) (h : Hunk) :
    Decidable (HunkAt base text b t h) :=
  decidable_of_iff (t ≤ h.buffer.start ∧ h.base.start = b + (h.buffer.start - t) ∧
      textIn base ⟨b, h.base.start⟩ = textIn text ⟨t, h.buffer.start⟩ ∧
      h.buffer.start ≤ h.buffer.stop ∧ h.base.start ≤ h.base.stop ∧
      h.buffer.stop ≤ text.length ∧ h.base.stop ≤ base.length ∧
      (h.buffer.start < h.buffer.stop ∨ h.base.start < h.base.stop))
    ⟨fun ⟨h1, h2, h3, h4, h5, h6, h7, h8⟩ => ⟨h1, h2, h3, h4, h5, h6, h7, h8⟩,
      fun h => ⟨h.1, h.2, h.3, h.4, h.5, h.6, h.7, h.8⟩⟩

instance decidableExactFrom (base text : Bytes) : ∀ (b t : Nat) (hunks : List Hunk),
    Decidable (ExactFrom base text b t hunks)
  | b, t, [] => inferInstanceAs (Decidable (base.drop b = text.drop t))
  | b, t, h :: hunks =>
    have := decidableExactFrom base text h.base.stop h.buffer.stop hunks
    inferInstanceAs (Decidable (HunkAt base text b t h ∧
      (∀ h' ∈ hunks.head?, h.buffer.stop < h'.buffer.start) ∧
      ExactFrom base text h.base.stop h.buffer.stop hunks))

/-- The first position of the base text that corresponds to a position of the buffer. -/
def toBaseStart : Nat → Nat → List Hunk → Nat → Nat
  | b, t, [], s => b + (s - t)
  | b, t, h :: hunks, s =>
    if s < h.buffer.start then b + (s - t)
    else if s = h.buffer.start ∨ s < h.buffer.stop then h.base.start
    else toBaseStart h.base.stop h.buffer.stop hunks s

/-- The last one. -/
def toBaseEnd : Nat → Nat → List Hunk → Nat → Nat
  | b, t, [], e => b + (e - t)
  | b, t, h :: hunks, e =>
    if e < h.buffer.start ∨ (e = h.buffer.start ∧ h.buffer.start < h.buffer.stop) then b + (e - t)
    else if e ≤ h.buffer.stop then h.base.stop
    else toBaseEnd h.base.stop h.buffer.stop hunks e

def toBaseRange (hunks : List Hunk) (r : Range) : Range :=
  ⟨toBaseStart 0 0 hunks r.start, toBaseEnd 0 0 hunks r.stop⟩

def endsOf : Nat → Nat → List Hunk → Nat × Nat
  | b, t, [] => (b, t)
  | _, _, h :: hunks => endsOf h.base.stop h.buffer.stop hunks

theorem endsOf_getLast : ∀ (b t : Nat) (hunks : List Hunk),
    endsOf b t hunks = ((hunks.getLast?.map (·.base.stop)).getD b,
      (hunks.getLast?.map (·.buffer.stop)).getD t)
  | _, _, [] => rfl
  | _, _, [_] => rfl
  | b, t, h :: h' :: hunks => by
      rw [endsOf, endsOf_getLast, List.getLast?_cons_cons]
      obtain ⟨k, hk⟩ : ∃ k, (h' :: hunks).getLast? = some k :=
        ⟨_, List.getLast?_eq_some_getLast (cons_ne_nil h' hunks)⟩
      rw [hk]
      rfl

section

variable {base text : Bytes} {b t : Nat} {hunks : List Hunk}

theorem textIn_length {r : Range} (h : r.stop ≤ text.length) :
    (textIn text r).length = r.stop - r.start := by
  rw [textIn, length_drop, length_take, Nat.min_eq_left h]

namespace ExactFrom

/-- The hunks come one after the other, with something between any two. -/
theorem sorted : ∀ {b t : Nat} {hunks : List Hunk}, ExactFrom base text b t hunks →
    (∀ h ∈ hunks, b ≤ h.base.start ∧ t ≤ h.buffer.start) ∧
      hunks.Pairwise fun h h' => h.buffer.stop < h'.buffer.start ∧ h.base.stop ≤ h'.base.start
  | _, _, [], _ => ⟨by simp, .nil⟩
  | b, t, h :: hunks, ⟨hh, hgap, hrest⟩ => by
      obtain ⟨hge, hpw⟩ := sorted hrest
      have hstart := hh.start
      have hbs := hh.base_start
      have hle := hh.buffer_le
      have hble := hh.base_le
      constructor
      · intro h' hm
        rcases List.mem_cons.mp hm with rfl | hm
        · exact ⟨by omega, hstart⟩
        · obtain ⟨h1, h2⟩ := hge h' hm
          exact ⟨by omega, by omega⟩
      · refine List.pairwise_cons.mpr ⟨fun h' hm => ⟨?_, (hge h' hm).1⟩, hpw⟩
        cases hunks with
        | nil => simp at hm
        | cons k hunks =>
          have hk := hgap k rfl
          rcases List.mem_cons.mp hm with rfl | hm
          · exact hk
          · have hlt := (rel_of_pairwise_cons hpw hm).1
            have := hrest.1.buffer_le
            omega

theorem valid : ∀ {b t : Nat} {hunks : List Hunk}, ExactFrom base text b t hunks →
    ∀ h ∈ hunks, h.buffer.start ≤ h.buffer.stop ∧ h.base.start ≤ h.base.stop ∧
      h.buffer.stop ≤ text.length ∧ h.base.stop ≤ base.length ∧
      (h.buffer.start < h.buffer.stop ∨ h.base.start < h.base.stop)
  | _, _, [], _ => by simp
  | _, _, h :: hunks, ⟨hh, _, hrest⟩ => by
      intro h' hm
      rcases List.mem_cons.mp hm with rfl | hm
      · exact ⟨hh.buffer_le, hh.base_le, hh.buffer_stop, hh.base_stop, hh.ne⟩
      · exact valid hrest h' hm

theorem drop : ∀ {b t : Nat} {skipped rest : List Hunk}, ExactFrom base text b t (skipped ++ rest) →
    ExactFrom base text (endsOf b t skipped).1 (endsOf b t skipped).2 rest
  | _, _, [], _, h => h
  | _, _, k :: skipped, rest, h => by
      have hrest : ExactFrom base text k.base.stop k.buffer.stop (skipped ++ rest) := h.2.2
      rw [endsOf]
      exact drop hrest

/-- Both texts go on for as long behind a diff without hunks. -/
theorem length_eq (h : ExactFrom base text b t []) : base.length - b = text.length - t := by
  have := congrArg List.length h
  simpa using this

theorem endsOf_le : ∀ {b t : Nat} {skipped rest : List Hunk},
    ExactFrom base text b t (skipped ++ rest) → b ≤ base.length → t ≤ text.length →
    (endsOf b t skipped).1 ≤ base.length ∧ (endsOf b t skipped).2 ≤ text.length
  | _, _, [], _, _, hb, ht => ⟨hb, ht⟩
  | _, _, k :: skipped, rest, h, _, _ => by
      have hrest : ExactFrom base text k.base.stop k.buffer.stop (skipped ++ rest) := h.2.2
      rw [endsOf]
      exact endsOf_le hrest h.1.base_stop h.1.buffer_stop

end ExactFrom

theorem toBaseStart_skip : ∀ {b t : Nat} {skipped rest : List Hunk} {s : Nat},
    ExactFrom base text b t (skipped ++ rest) → (∀ h ∈ skipped, h.buffer.stop < s) →
    toBaseStart b t (skipped ++ rest) s =
      toBaseStart (endsOf b t skipped).1 (endsOf b t skipped).2 rest s
  | _, _, [], _, _, _, _ => rfl
  | _, _, h :: skipped, rest, s, he, hs => by
      have hlt := hs h (mem_cons_self ..)
      have hle := he.1.buffer_le
      rw [cons_append, toBaseStart, if_neg (by omega), if_neg (by omega),
        toBaseStart_skip he.2.2 fun h' hm => hs h' (mem_cons_of_mem _ hm)]
      rfl

theorem toBaseEnd_skip : ∀ {b t : Nat} {skipped rest : List Hunk} {e : Nat},
    ExactFrom base text b t (skipped ++ rest) → (∀ h ∈ skipped, h.buffer.stop < e) →
    toBaseEnd b t (skipped ++ rest) e =
      toBaseEnd (endsOf b t skipped).1 (endsOf b t skipped).2 rest e
  | _, _, [], _, _, _, _ => rfl
  | _, _, h :: skipped, rest, e, he, hs => by
      have hlt := hs h (mem_cons_self ..)
      have hle := he.1.buffer_le
      rw [cons_append, toBaseEnd, if_neg (by omega), if_neg (by omega),
        toBaseEnd_skip he.2.2 fun h' hm => hs h' (mem_cons_of_mem _ hm)]
      rfl

theorem toBaseStart_before {s : Nat} (h : ∀ h' ∈ hunks.head?, s < h'.buffer.start) :
    toBaseStart b t hunks s = b + (s - t) := by
  cases hunks with
  | nil => rfl
  | cons k hunks => rw [toBaseStart, if_pos (h k rfl)]

theorem toBaseEnd_before {e : Nat} (h : ∀ h' ∈ hunks.head?, e < h'.buffer.start) :
    toBaseEnd b t hunks e = b + (e - t) := by
  cases hunks with
  | nil => rfl
  | cons k hunks => rw [toBaseEnd, if_pos (.inl (h k rfl))]

theorem toBaseStart_mono : ∀ {b t : Nat} {hunks : List Hunk} (_ : ExactFrom base text b t hunks)
    (s s' : Nat), t ≤ s → s ≤ s' →
    b ≤ toBaseStart b t hunks s ∧ toBaseStart b t hunks s ≤ toBaseStart b t hunks s'
  | _, _, [], _, _, _, _, _ => by
      simp only [toBaseStart]
      omega
  | b, t, h :: hunks, he, s, s', ht, hs => by
      have hstart := he.1.start
      have hbs := he.1.base_start
      have hble := he.1.base_le
      have hle := he.1.buffer_le
      simp only [toBaseStart]
      by_cases h1 : s' < h.buffer.start
      · rw [if_pos (by omega), if_pos h1]
        omega
      · rw [if_neg h1]
        by_cases h2 : s' = h.buffer.start ∨ s' < h.buffer.stop
        · rw [if_pos h2]
          split
          · omega
          · rw [if_pos (by omega)]
            omega
        · rw [if_neg h2]
          have hs' := (toBaseStart_mono he.2.2 s' s' (by omega) le_rfl).1
          split
          · omega
          · split
            · omega
            · have := toBaseStart_mono he.2.2 s s' (by omega) hs
              omega

theorem toBaseEnd_mono : ∀ {b t : Nat} {hunks : List Hunk} (_ : ExactFrom base text b t hunks)
    (e e' : Nat), t ≤ e → e ≤ e' →
    b ≤ toBaseEnd b t hunks e ∧ toBaseEnd b t hunks e ≤ toBaseEnd b t hunks e'
  | _, _, [], _, _, _, _, _ => by
      simp only [toBaseEnd]
      omega
  | b, t, h :: hunks, he, e, e', ht, hle' => by
      have hstart := he.1.start
      have hbs := he.1.base_start
      have hble := he.1.base_le
      have hle := he.1.buffer_le
      simp only [toBaseEnd]
      by_cases h1 : e' < h.buffer.start ∨ (e' = h.buffer.start ∧ h.buffer.start < h.buffer.stop)
      · rw [if_pos h1]
        split
        · omega
        · omega
      · rw [if_neg h1]
        by_cases h2 : e' ≤ h.buffer.stop
        · rw [if_pos h2]
          split
          · omega
          · rw [if_pos (by omega)]
            omega
        · rw [if_neg h2]
          have hrec := toBaseEnd_mono he.2.2 e' e' (by omega) le_rfl
          split
          · omega
          · split
            · omega
            · have := toBaseEnd_mono he.2.2 e e' (by omega) hle'
              omega

theorem toBaseEnd_le : ∀ {b t : Nat} {hunks : List Hunk} {e : Nat},
    ExactFrom base text b t hunks → b ≤ base.length → t ≤ text.length → t ≤ e → e ≤ text.length →
    toBaseEnd b t hunks e ≤ base.length
  | _, _, [], _, he, hb, ht, hte, hle => by
      have := he.length_eq
      simp only [toBaseEnd]
      omega
  | b, t, h :: hunks, e, he, hb, ht, hte, hle => by
      have hstart := he.1.start
      have hbs := he.1.base_start
      have hble := he.1.base_le
      have hstop := he.1.base_stop
      simp only [toBaseEnd]
      split
      · omega
      · split
        · omega
        · exact toBaseEnd_le he.2.2 hstop he.1.buffer_stop (by omega) hle

theorem toBaseRange_hunk (he : ExactFrom base text 0 0 hunks) {h : Hunk} (hm : h ∈ hunks) :
    toBaseRange hunks h.buffer = h.base := by
  obtain ⟨skipped, rest, rfl⟩ := append_of_mem hm
  have hlt : ∀ h' ∈ skipped, h'.buffer.stop < h.buffer.start := fun h' hm' =>
    ((List.pairwise_append.mp he.sorted.2).2.2 h' hm' h (mem_cons_self ..)).1
  have hle := (he.valid h hm).1
  have hstart : toBaseStart 0 0 (skipped ++ h :: rest) h.buffer.start = h.base.start := by
    rw [toBaseStart_skip he hlt, toBaseStart, if_neg (by omega), if_pos (.inl rfl)]
  have hstop : toBaseEnd 0 0 (skipped ++ h :: rest) h.buffer.stop = h.base.stop := by
    rw [toBaseEnd_skip he fun h' hm' => Nat.lt_of_lt_of_le (hlt h' hm') hle, toBaseEnd,
      if_neg (by omega), if_pos le_rfl]
  rw [toBaseRange, hstart, hstop]

theorem textIn_shift {base text : Bytes} {b t n : Nat} {r : Range}
    (h : textIn base ⟨b, b + n⟩ = textIn text ⟨t, t + n⟩) (ht : t ≤ r.start) (hr : r.start ≤ r.stop)
    (hn : r.stop ≤ t + n) :
    textIn base ⟨b + (r.start - t), b + (r.stop - t)⟩ = textIn text r := by
  have hcut (xs : Bytes) (a k l : Nat) (hkl : k ≤ l) (hl : l ≤ n) :
      (xs.take (a + l)).drop (a + k) = (((xs.take (a + n)).drop a).take l).drop k := by
    rw [take_drop, take_take, Nat.min_eq_left (by omega), drop_drop]
  have h1 := hcut base b (r.start - t) (r.stop - t) (by omega) (by omega)
  have h2 := hcut text t (r.start - t) (r.stop - t) (by omega) (by omega)
  simp only [textIn] at h ⊢
  rw [h1, h, ← h2]
  congr 2 <;> omega

theorem textIn_toBaseRange : ∀ {b t : Nat} {hunks : List Hunk} {r : Range},
    ExactFrom base text b t hunks → b ≤ base.length → t ≤ text.length → t ≤ r.start →
    r.start ≤ r.stop → r.stop ≤ text.length →
    (∀ h ∈ hunks, h.buffer.stop < r.start ∨ r.stop < h.buffer.start) →
    textIn base ⟨toBaseStart b t hunks r.start, toBaseEnd b t hunks r.stop⟩ = textIn text r
  | b, t, [], r, he, hb, ht, hts, hr, hrl, _ => by
      have hlen := he.length_eq
      simp only [toBaseStart, toBaseEnd]
      refine textIn_shift (n := text.length - t) ?_ hts hr (by omega)
      simp only [textIn]
      rw [take_of_length_le (by omega), take_of_length_le (by omega)]
      exact he
  | b, t, h :: hunks, r, he, hb, ht, hts, hr, hrl, hside => by
      have hstart := he.1.start
      have hbs := he.1.base_start
      have hle := he.1.buffer_le
      rcases hside h (mem_cons_self ..) with hlt | hlt
      · simp only [toBaseStart, toBaseEnd]
        rw [if_neg (by omega), if_neg (by omega), if_neg (by omega), if_neg (by omega)]
        exact textIn_toBaseRange he.2.2 he.1.base_stop he.1.buffer_stop (by omega) hr hrl
          fun h' hm => hside h' (mem_cons_of_mem _ hm)
      · simp only [toBaseStart, toBaseEnd]
        rw [if_pos (by omega), if_pos (by omega)]
        refine textIn_shift (n := h.buffer.start - t) ?_ hts hr (by omega)
        rw [← hbs, show t + (h.buffer.start - t) = h.buffer.start by omega]
        exact he.1.same

end

end SpkEditor.Staging
