import SpkEditor.Lib.Places
import SpkEditor.Text.Anchor
import SpkEditor.Text.Wf

/-!
# Finding the fragment of an anchor

`try_find_fragment` finds the fragment that holds the byte an anchor names, whatever
splits have happened since (`tryFindFragment_spec`). From there `offset_for_anchor`
counts the visible bytes before it (`offsetForAnchor_spec`), and `anchor_at` is its
inverse (`anchorAt_spec`).
-/

namespace SpkEditor

open List

def Anchor.byte (a : Anchor) : CharId :=
  (a.timestamp, match a.bias with
    | .left => a.offset - 1
    | .right => a.offset)

structure Fragment.Holds (f : Fragment) (a : Anchor) : Prop where
  timestamp : f.timestamp = a.timestamp
  pos : a.bias = .left → 0 < a.offset
  le : f.insertionOffset ≤ a.byte.2
  lt : a.byte.2 < f.insertionOffset + f.len

namespace BufferSnapshot

/-- The insertions that a search for an anchor goes past. -/
def reaches (target : Lamport ×ₗ Nat) (bias : Bias) (i : InsertionFragment) : Bool :=
  i.key < target || (i.key = target && bias = .right)

theorem findWithPrev_eq (target : Lamport ×ₗ Nat) (bias : Bias) :
    ∀ (l : List InsertionFragment) (prev : Option InsertionFragment),
      findWithPrev target bias prev l =
        match l.dropWhile (reaches target bias) with
        | [] => none
        | i :: _ => some ((l.takeWhile (reaches target bias)).getLast?.or prev, i)
  | [], prev => rfl
  | i :: l, prev => by
      unfold findWithPrev
      by_cases hstop : target < i.key ∨ (target = i.key ∧ bias = .left)
      · have hr : reaches target bias i = false := by
          rw [reaches, Bool.or_eq_false_iff, Bool.and_eq_false_iff]
          rcases hstop with hlt | ⟨heq, hb⟩
          · exact ⟨decide_eq_false (not_lt_of_gt hlt), .inl (decide_eq_false (ne_of_gt hlt))⟩
          · exact ⟨decide_eq_false (by rw [heq]; exact lt_irrefl _),
              .inr (decide_eq_false (by rw [hb]; simp))⟩
        rw [if_pos hstop, dropWhile_cons_of_neg (by rw [hr]; simp),
          takeWhile_cons_of_neg (by rw [hr]; simp)]
        rfl
      · have hr : reaches target bias i = true := by
          rw [reaches, Bool.or_eq_true, Bool.and_eq_true, decide_eq_true_eq, decide_eq_true_eq,
            decide_eq_true_eq]
          obtain ⟨h1, h2⟩ := not_or.mp hstop
          rcases lt_or_eq_of_le (not_lt.mp h1) with hlt | heq
          · exact .inl hlt
          · refine .inr ⟨heq, ?_⟩
            cases bias with
            | left => exact absurd ⟨heq.symm, rfl⟩ h2
            | right => rfl
        rw [if_neg hstop, dropWhile_cons_of_pos hr, takeWhile_cons_of_pos hr,
          findWithPrev_eq target bias l (some i)]
        cases l.dropWhile (reaches target bias) with
        | nil => rfl
        | cons j rest =>
          rw [getLast?_cons]
          cases (l.takeWhile (reaches target bias)).getLast? <;> rfl

theorem tryFindFragment_eq {s : BufferSnapshot} {a : Anchor} (h : a.bias = .left → 0 < a.offset) :
    s.tryFindFragment a = (s.insertions.takeWhile (reaches a.key a.bias)).getLast? := by
  unfold tryFindFragment
  rw [findWithPrev_eq]
  have happ : s.insertions.takeWhile (reaches a.key a.bias) ++
      s.insertions.dropWhile (reaches a.key a.bias) = s.insertions := takeWhile_append_dropWhile
  cases hd : s.insertions.dropWhile (reaches a.key a.bias) with
  | nil =>
    rw [hd, append_nil] at happ
    rw [happ]
  | cons i rest =>
    dsimp only
    have hr : reaches a.key a.bias i = false := by
      have := head?_dropWhile_not (reaches a.key a.bias) s.insertions
      rw [hd, head?_cons] at this
      simpa using this
    rw [reaches, Bool.or_eq_false_iff, Bool.and_eq_false_iff, decide_eq_false_iff_not,
      decide_eq_false_iff_not, decide_eq_false_iff_not] at hr
    have hcond : a.key < i.key ∨ (a.bias = .left ∧ i.key = a.key ∧ 0 < a.offset) := by
      rcases lt_or_eq_of_le (not_lt.mp hr.1) with hlt | heq
      · exact .inl hlt
      · have hb : a.bias = .left := by
          rcases hr.2 with hne | hne
          · exact absurd heq.symm hne
          · cases hbias : a.bias with
            | left => rfl
            | right => exact absurd hbias hne
        exact .inr ⟨hb, heq.symm, h hb⟩
    rw [if_pos hcond, Option.or_none]

section

variable {byte : Lamport → Nat → UInt8} {s : BufferSnapshot} {a : Anchor} {f : Fragment}

theorem eq_of_shared (hw : Wf byte s) {g : Fragment} (hf : f ∈ s.fragments) (hg : g ∈ s.fragments)
    (ht : f.timestamp = g.timestamp) {o : Nat} (hfo : f.insertionOffset ≤ o)
    (hfo' : o < f.insertionOffset + f.len) (hgo : g.insertionOffset ≤ o)
    (hgo' : o < g.insertionOffset + g.len) : f = g := by
  have hmem : ∀ x : Fragment, x.insertionOffset ≤ o → o < x.insertionOffset + x.len →
      (x.timestamp, o) ∈ x.cells.map Cell.id := fun x h1 h2 =>
    List.mem_map.mpr ⟨x.cellAt o, mem_cells.mpr ⟨h1, h2, rfl⟩, rfl⟩
  by_contra hne
  have hnd := hw.nodup
  obtain ⟨pre, post, hsplit⟩ := append_of_mem hf
  rw [hsplit] at hg hnd
  rw [cellsOf_append, cellsOf_cons, map_append, map_append] at hnd
  have hfm := hmem f hfo hfo'
  have hgm := hmem g hgo hgo'
  rw [← ht] at hgm
  obtain ⟨-, h2, h3⟩ := List.nodup_append.mp hnd
  obtain ⟨-, -, h4⟩ := List.nodup_append.mp h2
  have hcells : ∀ {l : List Fragment}, g ∈ l → (f.timestamp, o) ∈ (cellsOf l).map Cell.id := by
    intro l hl
    obtain ⟨c, hc, heq⟩ := List.mem_map.mp hgm
    exact List.mem_map.mpr ⟨c, mem_cellsOf.mpr ⟨g, hl, hc⟩, heq⟩
  rcases List.mem_append.mp hg with hg | hg
  · exact h3 _ (hcells hg) _ (mem_append_left _ hfm) rfl
  · rcases List.mem_cons.mp hg with hg | hg
    · exact hne hg.symm
    · exact h4 _ hfm _ (hcells hg) rfl

/-- **`try_find_fragment` finds the fragment that holds the byte.** -/
theorem tryFindFragment_spec (hw : Wf byte s) (hf : f ∈ s.fragments) (h : f.Holds a) :
    s.tryFindFragment a = some (.new f) := by
  rw [tryFindFragment_eq h.pos]
  have hin : ∀ i, i ∈ s.insertions ↔ ∃ g ∈ s.fragments, i = .new g := hw.filed.mem_iff
  -- which insertions are gone past
  have hreach : ∀ g : Fragment, reaches a.key a.bias (.new g) = true ↔
      g.timestamp < a.timestamp ∨ (g.timestamp = a.timestamp ∧ g.insertionOffset ≤ a.byte.2) := by
    intro g
    have hkey : (InsertionFragment.new g).key = toLex (g.timestamp, g.insertionOffset) := rfl
    rw [reaches, Bool.or_eq_true, Bool.and_eq_true, decide_eq_true_eq, decide_eq_true_eq,
      decide_eq_true_eq, hkey, Anchor.key, Prod.Lex.toLex_lt_toLex, toLex_inj, Prod.mk.injEq]
    cases hb : a.bias with
    | left =>
      have hbyte : a.byte.2 = a.offset - 1 := by rw [Anchor.byte, hb]
      have := h.pos hb
      simp only [reduceCtorEq, and_false, or_false]
      exact or_congr_right (and_congr_right (fun _ => by omega))
    | right =>
      have hbyte : a.byte.2 = a.offset := by rw [Anchor.byte, hb]
      simp only [and_true]
      rw [or_assoc, ← and_or_left]
      exact or_congr_right (and_congr_right (fun _ => by omega))
  have hlt_iff : ∀ g g' : Fragment, (InsertionFragment.new g).key < (InsertionFragment.new g').key ↔
      g.timestamp < g'.timestamp ∨
        (g.timestamp = g'.timestamp ∧ g.insertionOffset < g'.insertionOffset) := fun _ _ =>
    Prod.Lex.toLex_lt_toLex
  refine KeyedList.getLast_takeWhile hw.filed.sorted ?_ ((hin _).mpr ⟨f, hf, rfl⟩)
    ((hreach f).mpr (.inr ⟨h.timestamp, h.le⟩)) ?_
  · intro i hi j hj hlt hpj
    obtain ⟨g, -, rfl⟩ := (hin i).mp hi
    obtain ⟨g', -, rfl⟩ := (hin j).mp hj
    rw [hreach] at hpj ⊢
    rcases (hlt_iff g g').mp hlt with hlt | ⟨heq, hlt⟩
    · rcases hpj with hpj | ⟨hpj, -⟩
      · exact .inl (lt_trans hlt hpj)
      · exact .inl (hpj ▸ hlt)
    · rcases hpj with hpj | ⟨hpj, hle⟩
      · exact .inl (heq ▸ hpj)
      · exact .inr ⟨heq.trans hpj, by omega⟩
  · -- nothing past it is gone past: it would start inside the fragment
    intro i hi hpi
    obtain ⟨g, hg, rfl⟩ := (hin i).mp hi
    rw [hreach] at hpi
    have hfts := h.timestamp
    rcases hpi with hlt | ⟨hts, hle⟩
    · exact le_of_lt ((hlt_iff g f).mpr (.inl (by rw [hfts]; exact hlt)))
    · rcases lt_or_ge f.insertionOffset g.insertionOffset with hlt | hge
      · have hlen := hw.len_pos g hg
        have hstart := h.lt
        have heq := eq_of_shared hw hf hg (hfts.trans hts.symm) (le_of_lt hlt) (by omega)
          (le_refl _) (by omega)
        rw [heq] at hlt
        exact absurd hlt (lt_irrefl _)
      · rcases Nat.lt_or_eq_of_le hge with hlt | heq
        · exact le_of_lt ((hlt_iff g f).mpr (.inr ⟨hts.trans hfts.symm, hlt⟩))
        · refine le_of_eq ?_
          show toLex (g.timestamp, g.insertionOffset) = toLex (f.timestamp, f.insertionOffset)
          rw [hts, hfts, heq]

theorem takeWhile_id_lt {pre post : List Fragment} (hids : IdsSorted (pre ++ f :: post)) :
    (pre ++ f :: post).takeWhile (fun g => g.id < f.id) = pre ∧
      (pre ++ f :: post).dropWhile (fun g => g.id < f.id) = f :: post := by
  have hpre : ∀ g ∈ pre, decide (g.id < f.id) = true := fun g hg =>
    decide_eq_true ((List.pairwise_append.mp hids).2.2 g hg f (by simp))
  have hself : ¬ decide (f.id < f.id) = true := by simp
  rw [takeWhile_append_of_pos hpre, dropWhile_append_of_pos hpre]
  constructor
  · rw [takeWhile_cons, if_neg hself, append_nil]
  · rw [dropWhile_cons, if_neg hself]

/-- **The offset of an anchor**: what is visible before the fragment that holds its byte, and
in the fragment up to it. -/
theorem offsetForAnchor_spec (cfg : Profile) (hw : Wf byte s) {pre post : List Fragment}
    (hsplit : s.fragments = pre ++ f :: post) (h : f.Holds a) (hmin : a.isMin = false)
    (hmax : a.isMax = false) (hid : a.bufferId = s.remoteId) :
    s.offsetForAnchor cfg a =
      some (visibleLen pre + if f.visible then a.offset - f.insertionOffset else 0) := by
  have hf : f ∈ s.fragments := by rw [hsplit]; simp
  have hobs : s.version.observed a.timestamp = true := by
    rw [← h.timestamp]; exact hw.observed f hf _ (.inl rfl)
  have hids : IdsSorted (pre ++ f :: post) := by rw [← hsplit]; exact hw.ids
  unfold offsetForAnchor
  rw [hmin, hmax, hobs, hid, tryFindFragment_spec hw hf h]
  simp only [Bool.false_eq_true, if_false, bne_self_eq_false, Bool.not_true, Bool.or_false,
    Bool.and_false]
  rw [if_neg (show ¬ (InsertionFragment.new f).timestamp ≠ a.timestamp from
    fun hne => hne h.timestamp)]
  have hpre : s.fragments.takeWhile (fun g => g.id < (InsertionFragment.new f).fragmentId) = pre := by
    rw [hsplit]; exact (takeWhile_id_lt hids).1
  have hpost : s.fragments.dropWhile (fun g => g.id < (InsertionFragment.new f).fragmentId) =
      f :: post := by
    rw [hsplit]; exact (takeWhile_id_lt hids).2
  rw [hpre, hpost]
  cases hv : f.visible with
  | true => simp [hv, InsertionFragment.new]
  | false => simp [hv]

theorem fragmentIdForAnchor_spec (cfg : Profile) (hw : Wf byte s) (hf : f ∈ s.fragments)
    (h : f.Holds a) (hmin : a.isMin = false) (hmax : a.isMax = false) :
    s.fragmentIdForAnchor cfg a = some f.id := by
  unfold fragmentIdForAnchor
  rw [hmin, hmax, tryFindFragment_spec hw hf h]
  have hts : ((InsertionFragment.new f).timestamp != a.timestamp) = false := by
    rw [show (InsertionFragment.new f).timestamp = f.timestamp from rfl, h.timestamp]
    exact bne_self_eq_false _
  dsimp only
  rw [hts, Bool.and_false, if_neg Bool.false_ne_true]
  rfl

/-! ## Making anchors -/

theorem visibleLen_eq_pos (fs : List Fragment) :
    (fs.map FragmentTextSummary.pos).sum = visibleLen fs := rfl

theorem length_visibleText (hw : Wf byte s) : s.visibleText.length = visibleLen s.fragments := by
  rw [hw.visibleText, length_textOf_visible]

theorem le_of_isCharBoundary {text : List UInt8} {offset : Nat}
    (h : isCharBoundary text offset = true) : offset ≤ text.length := by
  unfold isCharBoundary at h
  cases ht : text[offset]? with
  | none =>
    rw [ht] at h
    exact le_of_eq (beq_iff_eq.mp h)
  | some b => exact le_of_lt (List.getElem?_eq_some_iff.mp ht).1

theorem isCharBoundary_toOffset {offset : Nat} (hpos : 0 < s.toOffset offset) :
    isCharBoundary s.visibleText (s.toOffset offset) = true := by
  have hfloor : ∀ n, 0 < floorFrom s.visibleText n →
      isCharBoundary s.visibleText (floorFrom s.visibleText n) = true := by
    intro n
    induction n with
    | zero => exact fun h => absurd h (lt_irrefl _)
    | succ n ih =>
      intro h
      unfold floorFrom at h ⊢
      by_cases hb : isCharBoundary s.visibleText (n + 1) = true
      · rw [if_pos hb]; exact hb
      · rw [if_neg hb] at h ⊢; exact ih h
  unfold toOffset at hpos ⊢
  by_cases hb : isCharBoundary s.visibleText offset = true
  · rw [if_pos hb]; exact hb
  · rw [if_neg hb] at hpos ⊢
    unfold floorCharBoundary at hpos ⊢
    by_cases hle : s.visibleText.length ≤ offset
    · rw [if_pos hle]
      simp [isCharBoundary]
    · rw [if_neg hle] at hpos ⊢
      exact hfloor offset hpos

theorem item_of_le (hw : Wf byte s) {offset : Nat} {bias : Bias} (hle : offset ≤ s.visibleText.length)
    (hl : bias = .left → 0 < offset) (hr : bias = .right → offset ≠ s.visibleText.length) :
    (Cursor.sliceFrom FragmentTextSummary offset bias (0, 0) s.fragments).2.item ≠ none := by
  obtain ⟨pre, rest, hrest, hslice, -, hpass⟩ :=
    sliceFrom_spec FragmentTextSummary offset bias s.fragments (0, 0)
  rw [hslice]
  simp only [zero_add, visibleLen_eq_pos] at hpass
  rw [length_visibleText hw] at hle hr
  cases rest with
  | cons f post => simp [Cursor.item]
  | nil =>
    exfalso
    rw [append_nil] at hrest
    rw [hrest] at hle hr
    by_cases hne : pre = []
    · subst hne
      have h0 : visibleLen [] = 0 := rfl
      cases bias with
      | left => have := hl rfl; omega
      | right => have := hr rfl; omega
    · have hp := hpass hne
      simp only [Cursor.passes, Bool.or_eq_true, Bool.and_eq_true, decide_eq_true_eq,
        beq_iff_eq] at hp
      rcases hp with hlt | ⟨hb, heq⟩
      · omega
      · exact hr hb heq.symm

theorem exists_anchorAtOffset (cfg : Profile) (hw : Wf byte s) {offset : Nat} (bias : Bias)
    (hb : isCharBoundary s.visibleText offset = true) :
    ∃ a, s.anchorAtOffset cfg offset bias = some a := by
  unfold anchorAtOffset
  dsimp only
  split
  · exact ⟨_, rfl⟩
  rename_i hmin
  split
  · exact ⟨_, rfl⟩
  rename_i hmax
  rw [hb, Bool.not_true, Bool.and_false, if_neg Bool.false_ne_true]
  have hitem := @item_of_le _ _ hw _ bias (le_of_isCharBoundary hb)
    (fun hl => Nat.pos_of_ne_zero (fun h0 => hmin ⟨hl, h0⟩)) (fun hr heq => hmax ⟨hr, .inr heq⟩)
  cases hi : (Cursor.sliceFrom FragmentTextSummary offset bias (0, 0) s.fragments).2.item with
  | none => exact absurd hi hitem
  | some f => exact ⟨_, rfl⟩

/-- **What `anchor_at_offset` makes**: the smallest or the largest anchor, or one whose byte
is held by a visible fragment, with the offset it was asked for. -/
theorem anchorAtOffset_cases (hw : Wf byte s) {cfg : Profile} {offset : Nat} {bias : Bias}
    (hb : bias = .left → 0 < offset → isCharBoundary s.visibleText offset = true)
    (h : s.anchorAtOffset cfg offset bias = some a) :
    (a = .minForBuffer s.remoteId ∧ offset = 0) ∨
      (a = .maxForBuffer s.remoteId ∧
        (isCharBoundary s.visibleText offset = true → offset = s.visibleText.length)) ∨
      ∃ pre f post, s.fragments = pre ++ f :: post ∧ f.Holds a ∧ f.visible = true ∧
        a.bufferId = s.remoteId ∧ (isCharBoundary s.visibleText offset = true →
          visibleLen pre + (a.offset - f.insertionOffset) = offset) := by
  unfold anchorAtOffset at h
  dsimp only at h
  split at h
  · rename_i hmin
    exact .inl ⟨(Option.some.inj h).symm, hmin.2⟩
  rename_i hmin
  split at h
  · rename_i hmax
    refine .inr (.inl ⟨(Option.some.inj h).symm, fun hbd => ?_⟩)
    have := le_of_isCharBoundary hbd
    rcases hmax.2 with ⟨-, hle⟩ | heq
    · exact le_antisymm this hle
    · exact heq
  rename_i hmax
  have hend : isCharBoundary s.visibleText offset = true →
      (Cursor.sliceFrom FragmentTextSummary offset bias (0, 0) s.fragments).2.item ≠ none := fun hbd =>
    item_of_le hw (le_of_isCharBoundary hbd)
      (fun hl => Nat.pos_of_ne_zero (fun h0 => hmin ⟨hl, h0⟩)) (fun hr heq => hmax ⟨hr, .inr heq⟩)
  split at h
  · cases h
  -- the offset that is looked up
  obtain ⟨target, htarget⟩ : ∃ t, t = if isCharBoundary s.visibleText offset then offset
      else snapCharBoundary s.visibleText offset bias := ⟨_, rfl⟩
  rw [← htarget] at h
  have hsame : isCharBoundary s.visibleText offset = true → target = offset := fun hbd => by
    rw [htarget, if_pos hbd]
  have hpos : bias = .left → 0 < target := by
    intro hl
    have hpos : 0 < offset := Nat.pos_of_ne_zero (fun h0 => hmin ⟨hl, h0⟩)
    rw [hsame (hb hl hpos)]
    exact hpos
  obtain ⟨pre, rest, hrest, hslice, hstop, hpass⟩ :=
    sliceFrom_spec FragmentTextSummary target bias s.fragments (0, 0)
  rw [hslice] at h
  simp only [zero_add, visibleLen_eq_pos] at h hstop hpass
  cases rest with
  | nil =>
    simp only [Cursor.item, head?_nil] at h
    split at h
    · cases h
    · refine .inr (.inl ⟨(Option.some.inj h).symm, fun hbd => absurd ?_ (hend hbd)⟩)
      rw [← hsame hbd, hslice]
      rfl
  | cons f post =>
    simp only [Cursor.item, head?_cons, Option.some.injEq] at h
    have hnot := hstop f post rfl
    simp only [Cursor.passes, Bool.or_eq_false_iff, Bool.and_eq_false_iff, decide_eq_false_iff_not,
      beq_eq_false_iff_ne, ne_eq] at hnot
    have hbefore : pre ≠ [] → visibleLen pre < target ∨
        (bias = .right ∧ visibleLen pre = target) := by
      intro hne
      have := hpass hne
      simpa [Cursor.passes] using this
    have hzero : pre = [] → visibleLen pre = 0 := fun hp => by rw [hp]; rfl
    have hle : visibleLen pre ≤ target := by
      by_cases hne : pre = []
      · rw [hzero hne]; exact Nat.zero_le _
      · rcases hbefore hne with hlt | ⟨-, heq⟩ <;> omega
    have hstrict : bias = .left → visibleLen pre < target := by
      intro hl
      by_cases hne : pre = []
      · rw [hzero hne]; exact hpos hl
      · rcases hbefore hne with hlt | ⟨hr, -⟩
        · exact hlt
        · rw [hl] at hr; exact absurd hr (by simp)
    have hright : bias = .right → target < visibleLen pre + FragmentTextSummary.pos f := by
      intro hr
      rcases hnot.2 with hne | hne
      · exact absurd hr hne
      · omega
    have hvis : f.visible = true := by
      by_contra hv
      have h0 : FragmentTextSummary.pos f = 0 := by
        simp [FragmentTextSummary, Fragment.visibleLen, hv]
      cases bias with
      | left => have := hstrict rfl; omega
      | right => have := hright rfl; omega
    have hpf : FragmentTextSummary.pos f = f.len := by
      simp [FragmentTextSummary, Fragment.visibleLen, hvis]
    refine .inr (.inr ⟨pre, f, post, hrest, ?_, hvis, by rw [← h], fun hbd => ?_⟩)
    · cases bias with
      | left =>
        have := hstrict rfl
        refine ⟨by rw [← h], fun _ => by rw [← h]; dsimp only; omega, ?_, ?_⟩ <;>
          simp only [← h, Anchor.byte] <;> omega
      | right =>
        have := hright rfl
        refine ⟨by rw [← h], fun hl => by rw [← h] at hl; exact absurd hl (by simp), ?_, ?_⟩ <;>
          simp only [← h, Anchor.byte] <;> omega
    · rw [← hsame hbd, ← h]
      dsimp only
      omega

end

end BufferSnapshot

end SpkEditor
