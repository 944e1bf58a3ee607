import SpkEditor.Clock.VersionLaws
import SpkEditor.Text.Edits
import SpkEditor.Text.Wf

/-!
# What the edits since a version say

The walk holds one edit back and looks for the next stretch that changed. `Patch.Yields` says what is still to
come while it does: the edit held back replaces `x` by `y`, after it stands some text `g` that is the same on
both sides, and then what the rest of the fragments make of the old text. Every move of the walk is one of five
lemmas about it.

`scan` is the walk in one piece, without the stops at which `next` hands an edit out; `collect_eq` says that
nothing is lost between two of them.
-/

namespace SpkEditor

variable {β : Type}

namespace Patch

/-! ## Holding an edit back -/

/-- The edit held back, if any, replaces `x` by `y`. When it is `full` it does not replace nothing by nothing. -/
def HeldBack (full : Prop) (i j : Nat) (x y : List β) : Option Edit → Prop
  | none => x = [] ∧ y = []
  | some edit => edit = editAt i j x y ∧ (full → x ≠ [] ∨ y ≠ [])

/-- **What is yet to come**, from an edit held back on. -/
structure Yields (full : Prop) (i j : Nat) (x y g old new : List β) (changed : Prop) (edits : Patch) : Prop where
  runs : Runs i j edits (x ++ (g ++ old)) (y ++ (g ++ new))
  separated : edits.Separated
  changes : (∃ e ∈ edits, e.isEmpty = false) ↔ x ≠ [] ∨ y ≠ [] ∨ changed
  nonempty : full → ∀ e ∈ edits, e.isEmpty = false

variable {full changed : Prop} {i j : Nat} {x y g old new : List β} {edits : Patch}

/-- Text that is the same on both sides may go before the first edit. -/
theorem Runs.prepend (g : List β) (h : Runs (i + g.length) (j + g.length) edits old new) :
    Runs i j edits (g ++ old) (g ++ new) := by
  cases h with
  | nil => exact .nil
  | cons g' x y h =>
    have := Runs.cons (i := i) (j := j) (g ++ g') x y
      (by simpa only [List.length_append, Nat.add_assoc] using h)
    simpa only [List.length_append, Nat.add_assoc, List.append_assoc] using this

theorem Runs.head_le (h : Runs i j edits old new) : ∀ e ∈ edits.head?, i ≤ e.old.start ∧ j ≤ e.new.start := by
  cases h with
  | nil => simp
  | cons g x y h => simp

theorem editAt_isEmpty_false : (editAt i j x y).isEmpty = false ↔ x ≠ [] ∨ y ≠ [] := by
  rw [← Bool.not_eq_true, editAt_isEmpty, not_and_or]

theorem Yields.done {pending : Option Edit} (h : HeldBack full i j x y pending) :
    Yields full i j x y g [] [] False pending.toList := by
  cases pending with
  | none =>
    obtain ⟨rfl, rfl⟩ := h
    exact ⟨by simpa using Runs.nil, List.isChain_nil, by simp, by simp⟩
  | some edit =>
    obtain ⟨rfl, hfull⟩ := h
    refine ⟨?_, List.isChain_singleton _, ?_, ?_⟩
    · simpa [editAt] using Runs.cons (i := i) (j := j) [] x y (Runs.nil (o := g))
    · simp [editAt_isEmpty_false]
    · simpa [editAt_isEmpty_false] using hfull

/-- Nothing is held back, and the text in between has been passed. -/
theorem Yields.caughtUp (h : Yields full (i + g.length) (j + g.length) [] [] [] old new changed edits) :
    Yields full i j [] [] g old new changed edits :=
  ⟨h.runs.prepend g, h.separated, h.changes, h.nonempty⟩

/-- The edit held back is handed out, for there is text behind it. -/
theorem Yields.emit (hfull : full → x ≠ [] ∨ y ≠ []) (hg : g ≠ [])
    (h : Yields full (i + x.length + g.length) (j + y.length + g.length) [] [] [] old new changed edits) :
    Yields full i j x y g old new changed (editAt i j x y :: edits) := by
  have hpos : 0 < g.length := List.length_pos_of_ne_nil hg
  refine ⟨?_, ?_, ?_, fun hf e he => ?_⟩
  · have hruns : Runs (i + 0 + x.length) (j + 0 + y.length) edits (g ++ old) (g ++ new) := h.runs.prepend g
    exact Runs.cons [] x y hruns
  · refine List.IsChain.cons h.separated (fun e he => ?_)
    have := h.runs.head_le e he
    simp only [editAt]
    omega
  · have := h.changes
    simp only [List.mem_cons, exists_eq_or_imp, editAt_isEmpty_false, this, ne_eq, not_true_eq_false, false_or,
      or_assoc]
  · rcases List.mem_cons.mp he with rfl | he
    · exact editAt_isEmpty_false.mpr (hfull hf)
    · exact h.nonempty hf e he

theorem Yields.change {dx dy : List β} (h : Yields full i j (x ++ dx) (y ++ dy) [] old new changed edits) :
    Yields full i j x y [] (dx ++ old) (dy ++ new) ((dx ≠ [] ∨ dy ≠ []) ∨ changed) edits := by
  refine ⟨by simpa only [List.append_assoc, List.nil_append] using h.runs, h.separated, ?_, h.nonempty⟩
  rw [h.changes, ne_eq, ne_eq, List.append_eq_nil_iff, List.append_eq_nil_iff, not_and_or, not_and_or]
  tauto

theorem Yields.copy {part : List β} (h : Yields full i j x y (g ++ part) old new changed edits) :
    Yields full i j x y g (part ++ old) (part ++ new) changed edits :=
  ⟨by simpa only [List.append_assoc] using h.runs, h.separated, h.changes, h.nonempty⟩

end Patch

open Patch

/-! ## The walk in one piece -/

namespace Edits

variable {q : EditsQuery}

/-- All edits from an edit held back on, without handing them out one by one. -/
def scan (q : EditsQuery) : List FilterStop → Edits → Option Edit → Option Patch
  | [], _, pendingEdit => some pendingEdit.toList
  | stop :: stops, e, pendingEdit =>
    if stop.fragment.id < q.start.1 then scan q stops e pendingEdit
    else if q.stop.1 < stop.fragment.id then some pendingEdit.toList
    else
      (e.catchUp stop.start.1).bind fun e =>
        if e.isApart pendingEdit then
          (e.change q stop none).bind fun r =>
            (scan q stops r.1 r.2).map fun edits => pendingEdit.toList ++ edits
        else (e.change q stop pendingEdit).bind fun r => scan q stops r.1 r.2

theorem TextCursor.summary_offset {c c' : TextCursor} {stop len : Nat} (h : c.summary stop = some (len, c')) :
    c'.offset = stop := by
  unfold TextCursor.summary TextCursor.slice TextCursor.seekForward at h
  split at h
  · simp only [Option.map_some, Option.some.injEq, Prod.mk.injEq] at h
    rw [← h.2]
  · cases h

theorem catchUp_again {e e' : Edits} {start : Nat} (h : e.catchUp start = some e') :
    e'.catchUp start = some e' := by
  unfold catchUp at h
  split at h
  · obtain ⟨⟨len, c⟩, hc, rfl⟩ := Option.map_eq_some_iff.mp h
    have := TextCursor.summary_offset hc
    rw [catchUp, if_neg (by simp only; omega)]
  · rename_i hlt
    cases h
    rw [catchUp, if_neg hlt]

/-- **One call of `next` and then the rest** is the walk in one piece. -/
theorem scan_next : ∀ (stops : List FilterStop) (e : Edits) (pendingEdit : Option Edit),
    scan q stops e pendingEdit = (next q stops e pendingEdit).bind fun r =>
      r.1.elim (some []) fun edit => (scan q r.2.1 r.2.2 none).map fun edits => edit :: edits := by
  intro stops
  induction stops with
  | nil => intro e pendingEdit; cases pendingEdit <;> rfl
  | cons stop stops ih =>
    intro e pendingEdit
    rw [scan, next]
    by_cases hskip : stop.fragment.id < q.start.1
    · rw [if_pos hskip, if_pos hskip, ih]
    rw [if_neg hskip, if_neg hskip]
    by_cases hpast : q.stop.1 < stop.fragment.id
    · rw [if_pos hpast, if_pos hpast]
      cases pendingEdit with
      | none => rfl
      | some edit =>
        simp only [Option.bind_some, Option.elim_some]
        rw [scan, if_neg hskip, if_pos hpast]
        rfl
    rw [if_neg hpast, if_neg hpast]
    cases hcatch : e.catchUp stop.start.1 with
    | none => rfl
    | some e' =>
      simp only [Option.bind_some]
      by_cases hapart : e'.isApart pendingEdit = true
      · rw [if_pos hapart, if_pos hapart]
        cases pendingEdit with
        | none => exact absurd hapart (by simp [isApart])
        | some edit =>
          simp only [Option.bind_some, Option.elim_some, Option.toList_some, List.singleton_append]
          rw [scan, if_neg hskip, if_neg hpast, catchUp_again hcatch, Option.bind_some,
            if_neg (by simp [isApart]), Option.map_bind]
          rfl
      · rw [if_neg hapart, if_neg hapart]
        cases e'.change q stop pendingEdit with
        | none => rfl
        | some r => exact ih r.1 r.2

/-- `next` does not go back, and to hand out an edit it goes on. -/
theorem next_length : ∀ {stops : List FilterStop} {e : Edits} {pendingEdit : Option Edit}
    {r : Option Edit × List FilterStop × Edits}, next q stops e pendingEdit = some r →
      r.2.1.length ≤ stops.length ∧ (pendingEdit = none → r.1 ≠ none → r.2.1.length < stops.length) := by
  intro stops
  induction stops with
  | nil =>
    intro e pendingEdit r h
    cases h
    exact ⟨Nat.le_refl _, fun hp hr => absurd hp hr⟩
  | cons stop stops ih =>
    intro e pendingEdit r h
    rw [next] at h
    split at h
    · have := ih h
      exact ⟨Nat.le_succ_of_le this.1, fun hp hr => Nat.lt_succ_of_le this.1⟩
    split at h
    · cases h
      exact ⟨Nat.le_refl _, fun hp hr => absurd hp hr⟩
    obtain ⟨e', -, h⟩ := Option.bind_eq_some_iff.mp h
    split at h
    · rename_i hapart
      cases h
      refine ⟨Nat.le_refl _, fun hp _ => absurd hapart ?_⟩
      rw [hp]
      simp [isApart]
    · obtain ⟨r', -, h⟩ := Option.bind_eq_some_iff.mp h
      have := (ih h).1
      exact ⟨Nat.le_succ_of_le this, fun _ _ => Nat.lt_succ_of_le this⟩

/-- **Collecting the edits is one walk.** -/
theorem collect_eq : ∀ {fuel : Nat} {stops : List FilterStop} {e : Edits}, stops.length < fuel →
    collect q fuel stops e = scan q stops e none := by
  intro fuel
  induction fuel with
  | zero => intro stops e h; exact absurd h (Nat.not_lt_zero _)
  | succ fuel ih =>
    intro stops e h
    rw [collect, scan_next]
    cases hnext : next q stops e none with
    | none => rfl
    | some r =>
      obtain ⟨edit, stops', e'⟩ := r
      cases edit with
      | none => rfl
      | some edit =>
        have := (next_length hnext).2 rfl (by simp)
        simp only [Option.bind_some, Option.elim_some]
        rw [ih (by simp only at this; omega)]

end Edits

/-! ## Fragments that have stayed the same -/

theorem observed_foldl_observe {e : Lamport} : ∀ {ds : List Lamport} {g : Global},
    g.observed e = true ∨ e ∈ ds → (ds.foldl Global.observe g).observed e = true := by
  intro ds
  induction ds with
  | nil => intro g h; exact h.resolve_right List.not_mem_nil
  | cons d ds ih =>
    intro g h
    refine ih ?_
    rcases h with h | h
    · exact Or.inl (Global.observed_observe_of h)
    · rcases List.mem_cons.mp h with rfl | h
      · exact Or.inl (Global.observed_observe_self ..)
      · exact Or.inr h

theorem Global.observed_join {g other : Global} {e : Lamport} :
    (g.join other).observed e = true ↔ g.observed e = true ∨ other.observed e = true := by
  simp only [Global.observed_iff, Global.get_join]
  omega

/-- The `max_version` of a fragment is ahead of every edit that its visibility depends on. -/
theorem Fragment.observed_maxVersion (f : Fragment) {e : Lamport} (h : f.DependsOn e) :
    f.maxVersion.observed e = true := by
  refine Global.observed_join.mpr (Or.inl (observed_foldl_observe ?_))
  rcases h with rfl | h
  · exact Or.inl (Global.observed_observe_self ..)
  · exact Or.inr h

theorem Wf.wasVisible_of_untouched {byte : Lamport → Nat → UInt8} {s : BufferSnapshot} (h : Wf byte s) {f : Fragment}
    (hf : f ∈ s.fragments) {since : Global} (ht : f.touchedSince since = false) :
    f.wasVisible since s.undoMap = f.visible := by
  have hall : since.observedAll f.maxVersion = true := by simpa [Fragment.touchedSince] using ht
  have hobs : ∀ e, f.DependsOn e → since.observed e = true := fun e he =>
    Global.observed_of_observedAll hall (f.observed_maxVersion he)
  have hundone : ∀ e, f.DependsOn e → s.undoMap.wasUndone e since = s.undoMap.isUndone e := by
    intro e he
    refine UndoMap.wasUndone_eq_isUndone h.undosSorted (fun x hx heq => ?_)
    subst heq
    exact Global.observed_of_observedAll hall (Global.observed_join.mpr (Or.inr (h.maxUndos f hf x hx he)))
  rw [h.visible f hf, Fragment.wasVisible, Fragment.isVisible, hobs _ (Or.inl rfl), hundone _ (Or.inl rfl),
    Bool.true_and]
  congr 1
  rw [Bool.eq_iff_iff, List.all_eq_true, List.all_eq_true]
  refine forall₂_congr (fun d hd => ?_)
  rw [hobs d (Or.inr hd), hundone d (Or.inr hd), Bool.not_true, Bool.false_or]

/-! ## What a range has of the fragments -/

theorem Fragment.wasVisible_cell {f : Fragment} {c : Cell} (hc : c ∈ f.cells) (v : Global) (undos : UndoMap) :
    c.wasVisible v undos = f.wasVisible v undos := by
  obtain ⟨ht, -, hd, -⟩ := cells_uniform hc
  rw [Cell.wasVisible, Fragment.wasVisible, ht, hd]

/-- The bytes of the cells that a version could see. -/
def oldTextOf (byte : Lamport → Nat → UInt8) (v : Global) (undos : UndoMap) (cells : List Cell) : List UInt8 :=
  bytesOf byte (cells.filter fun c => c.wasVisible v undos)

@[simp] theorem oldTextOf_append (byte : Lamport → Nat → UInt8) (v : Global) (undos : UndoMap) (l m : List Cell) :
    oldTextOf byte v undos (l ++ m) = oldTextOf byte v undos l ++ oldTextOf byte v undos m := by
  simp [oldTextOf, bytesOf]

theorem oldTextOf_uniform (byte : Lamport → Nat → UInt8) {v : Global} {undos : UndoMap} {w : Bool} {cells : List Cell}
    (h : ∀ c ∈ cells, c.wasVisible v undos = w) :
    oldTextOf byte v undos cells = if w then bytesOf byte cells else [] := by
  unfold oldTextOf
  split
  · rename_i hw
    rw [List.filter_eq_self.mpr (fun c hc => (h c hc).trans hw)]
  · rename_i hw
    rw [List.filter_eq_nil_iff.mpr (fun _ hc => by rw [h _ hc]; exact hw)]
    rfl

namespace EditsQuery

variable {q : EditsQuery} {byte : Lamport → Nat → UInt8} {f : Fragment} {skip : Nat}

/-- How much of a fragment comes before the end of the range. -/
def reach (q : EditsQuery) (f : Fragment) : Nat :=
  if f.id = q.stop.1 then min f.len (q.stop.2 - f.insertionOffset) else f.len

/-- The cells of a fragment that the range has, from one of them on. -/
def part (q : EditsQuery) (skip : Nat) (f : Fragment) : List Cell := (f.cells.take (q.reach f)).drop skip

/-- The cells of several fragments, the first of which may not be in the range as a whole. -/
def parts (q : EditsQuery) : Nat → List Fragment → List Cell
  | _, [] => []
  | skip, f :: fs => q.part skip f ++ parts q 0 fs

/-- A fragment was visible and is not, or the other way round. -/
def Changed (q : EditsQuery) (f : Fragment) : Prop := f.wasVisible q.since q.undos ≠ f.visible

def ChangedIn (q : EditsQuery) : Nat → List Fragment → Prop
  | _, [] => False
  | skip, f :: fs => (q.Changed f ∧ q.part skip f ≠ []) ∨ ChangedIn q 0 fs

theorem reach_le (q : EditsQuery) (f : Fragment) : q.reach f ≤ f.len := by
  unfold reach
  split <;> omega

theorem reach_of_lt (h : f.id < q.stop.1) : q.reach f = f.len := if_neg (ne_of_lt h)

theorem length_part (q : EditsQuery) (skip : Nat) (f : Fragment) : (q.part skip f).length = q.reach f - skip := by
  have := q.reach_le f
  simp [part, Nat.min_eq_left this]

theorem part_subset {c : Cell} (h : c ∈ q.part skip f) : c ∈ f.cells :=
  List.mem_of_mem_take (List.mem_of_mem_drop h)

section

variable (byte : Lamport → Nat → UInt8) (q : EditsQuery) (skip : Nat) (f : Fragment)

theorem textOf_part :
    textOf byte true (q.part skip f) = if f.visible then bytesOf byte (q.part skip f) else [] :=
  textOf_uniform byte (fun _ hc => (cells_uniform (part_subset hc)).2.1)

theorem oldTextOf_part :
    oldTextOf byte q.since q.undos (q.part skip f) =
      if f.wasVisible q.since q.undos then bytesOf byte (q.part skip f) else [] :=
  oldTextOf_uniform byte (fun _ hc => Fragment.wasVisible_cell (part_subset hc) _ _)

end

theorem clamp_eq {start : Nat} (h : f.id = q.stop.1 → f.insertionOffset ≤ q.stop.2) :
    q.clamp f start (start + f.len) = some (start + q.reach f) := by
  unfold clamp reach
  split
  · rename_i hid
    rw [Patch.checkedSub, if_pos (h hid), Option.map_some, Nat.add_min_add_left]
  · rfl

/-- The fragments of a range, in order. -/
structure Covers (q : EditsQuery) (fs : List Fragment) : Prop where
  ids : IdsSorted fs
  start_le : ∀ f ∈ fs, q.start.1 ≤ f.id
  le_stop : ∀ f ∈ fs, f.id ≤ q.stop.1
  clamp : ∀ f ∈ fs, f.id = q.stop.1 → f.insertionOffset ≤ q.stop.2
  same : ∀ f ∈ fs, f.touchedSince q.since = false → ¬ q.Changed f

theorem Covers.tail {fs : List Fragment} (h : q.Covers (f :: fs)) : q.Covers fs :=
  ⟨(List.pairwise_cons.mp h.ids).2, fun g hg => h.start_le g (List.mem_cons_of_mem _ hg),
    fun g hg => h.le_stop g (List.mem_cons_of_mem _ hg), fun g hg => h.clamp g (List.mem_cons_of_mem _ hg),
    fun g hg => h.same g (List.mem_cons_of_mem _ hg)⟩

theorem Covers.reach_eq {fs : List Fragment} (h : q.Covers (f :: fs)) (hne : fs ≠ []) : q.reach f = f.len := by
  obtain ⟨g, fs, rfl⟩ := List.exists_cons_of_ne_nil hne
  exact reach_of_lt (lt_of_lt_of_le ((List.pairwise_cons.mp h.ids).1 g (by simp)) (h.le_stop g (by simp)))

end EditsQuery

/-! ## One fragment -/

theorem TextCursor.summary_eq {c : TextCursor} {stop : Nat} (hle : c.offset ≤ stop) (hfit : stop ≤ c.text.length) :
    c.summary stop = some (stop - c.offset, { c with offset := stop }) := by
  rw [summary, slice, seekForward, if_pos ⟨hle, hfit⟩]
  simp [Nat.min_eq_left hfit]

def Fragment.behind (f : Fragment) (start : Nat × Nat) : Nat × Nat :=
  (start.1 + f.visibleLen, start.2 + f.deletedLen)

namespace Edits

variable {q : EditsQuery} {byte : Lamport → Nat → UInt8} {e : Edits} {f : Fragment} {fs : List Fragment}
  {start : Nat × Nat} {skip i j : Nat} {x y g : List UInt8} {full : Prop} {pendingEdit : Option Edit}

/-- **Where the walk stands**: at some fragments, of the first of which the range does not have the first `skip`
cells. The visible text before them has been passed but for `g`. -/
structure Stands (e : Edits) (start : Nat × Nat) (skip : Nat) (fs : List Fragment) (g : List UInt8) : Prop where
  visible : ∀ f ∈ fs.head?, e.visibleCursor.offset + g.length = start.1 + if f.visible then skip else 0
  deleted : ∀ f ∈ fs.head?, max e.deletedCursor.offset start.2 = start.2 + if f.visible then 0 else skip
  visibleFits : start.1 + visibleLen fs ≤ e.visibleCursor.text.length
  deletedFits : start.2 + deletedLen fs ≤ e.deletedCursor.text.length
  skipped : 0 < skip → g = []

structure Ends (e : Edits) (i j : Nat) (x y : List UInt8) : Prop where
  old : e.oldEnd = i + x.length
  new : e.newEnd = j + y.length

/-- Past some text that is the same on both sides. -/
def ahead (e : Edits) (n : Nat) : Edits :=
  ⟨{ e.visibleCursor with offset := e.visibleCursor.offset + n }, e.deletedCursor, e.oldEnd + n, e.newEnd + n⟩

theorem Stands.catchUp (h : e.Stands start skip (f :: fs) g) :
    e.catchUp start.1 = some (e.ahead g.length) ∧ (e.ahead g.length).Stands start skip (f :: fs) [] := by
  have hv := h.visible f rfl
  refine ⟨?_, ⟨fun k hk => ?_, h.deleted, h.visibleFits, h.deletedFits, fun _ => rfl⟩⟩
  · unfold Edits.catchUp
    by_cases hg : g = []
    · subst hg
      rw [if_neg (by simp only [List.length_nil] at hv; omega)]
      rfl
    · have hskip : skip = 0 := Nat.eq_zero_of_not_pos (fun hpos => hg (h.skipped hpos))
      have hpos := List.length_pos_of_ne_nil hg
      have hfit := h.visibleFits
      rw [hskip, ite_self, Nat.add_zero] at hv
      rw [if_pos (by omega), TextCursor.summary_eq (by omega) (by omega), Option.map_some, ahead, hv,
        show start.1 - e.visibleCursor.offset = g.length by omega]
  · exact h.visible k hk

/-- A fragment that is as it was is text that is the same on both sides, if it is any text. -/
theorem Stands.pass (byte : Lamport → Nat → UInt8) (h : e.Stands start skip (f :: fs) g) (hskip : skip ≤ q.reach f)
    (hreach : fs ≠ [] → q.reach f = f.len) :
    e.Stands (f.behind start) 0 fs (g ++ textOf byte true (q.part skip f)) := by
  have hv := h.visible f rfl
  have hd := h.deleted f rfl
  have hlen : (textOf byte true (q.part skip f)).length = if f.visible then q.reach f - skip else 0 := by
    rw [EditsQuery.textOf_part]
    split
    · rw [length_bytesOf, q.length_part]
    · rfl
  refine ⟨fun k hk => ?_, fun k hk => ?_, ?_, ?_, fun hpos => absurd hpos (Nat.lt_irrefl _)⟩
  · have hr := hreach (by rintro rfl; simp at hk)
    rw [List.length_append, hlen, ite_self]
    simp only [Fragment.behind, Fragment.visibleLen]
    split at hv <;> rename_i hvis <;> simp only [hvis, if_true, Bool.false_eq_true, if_false] <;> omega
  · have hr := hreach (by rintro rfl; simp at hk)
    rw [ite_self]
    simp only [Fragment.behind, Fragment.deletedLen]
    split at hd <;> rename_i hvis <;> simp only [hvis, if_true, Bool.false_eq_true, if_false] <;> omega
  · have := h.visibleFits
    simp only [visibleLen, List.map_cons, List.sum_cons] at this
    simp only [Fragment.behind, visibleLen]
    omega
  · have := h.deletedFits
    simp only [deletedLen, List.map_cons, List.sum_cons] at this
    simp only [Fragment.behind, deletedLen]
    omega

theorem change_of_same (hsame : ¬ q.Changed f) : e.change q ⟨start, f⟩ pendingEdit = some (e, pendingEdit) := by
  have heq : f.wasVisible q.since q.undos = f.visible := not_ne_iff.mp hsame
  rw [change, heq]
  cases f.visible <;> rfl

section

variable (hends : e.Ends i j x y) (hheld : HeldBack full i j x y pendingEdit)
include hends hheld

theorem growNew_held (dy : List UInt8) :
    e.growNew (e.newEnd + dy.length) pendingEdit = editAt i j x (y ++ dy) := by
  obtain ⟨hold, hnew⟩ := hends
  cases pendingEdit with
  | none =>
    obtain ⟨rfl, rfl⟩ := hheld
    simp_all [growNew, editAt]
  | some edit =>
    obtain ⟨rfl, -⟩ := hheld
    simp [growNew, editAt, hnew, Nat.add_assoc]

theorem growOld_held (dx : List UInt8) :
    e.growOld (e.oldEnd + dx.length) pendingEdit = editAt i j (x ++ dx) y := by
  obtain ⟨hold, hnew⟩ := hends
  cases pendingEdit with
  | none =>
    obtain ⟨rfl, rfl⟩ := hheld
    simp_all [growOld, editAt]
  | some edit =>
    obtain ⟨rfl, -⟩ := hheld
    simp [growOld, editAt, hold, Nat.add_assoc]

end

/-- Behind a fragment, with the cursors where a change leaves them. -/
theorem Stands.move {e' : Edits} (h : e.Stands start skip (f :: fs) g) (hreach : fs ≠ [] → q.reach f = f.len)
    (hvt : e'.visibleCursor.text = e.visibleCursor.text)
    (hvo : e'.visibleCursor.offset = start.1 + if f.visible then q.reach f else 0)
    (hdt : e'.deletedCursor.text = e.deletedCursor.text)
    (hdo : e'.deletedCursor.offset ≤ start.2 + f.deletedLen) : e'.Stands (f.behind start) 0 fs [] := by
  have hvfit := h.visibleFits
  have hdfit := h.deletedFits
  simp only [visibleLen, deletedLen, List.map_cons, List.sum_cons] at hvfit hdfit
  refine ⟨fun k hk => ?_, fun k hk => ?_, ?_, ?_, fun _ => rfl⟩
  · have hr := hreach (by rintro rfl; simp at hk)
    rw [hvo, hr, ite_self]
    rfl
  · rw [ite_self]
    exact Nat.max_eq_right hdo
  · rw [hvt]
    simp only [Fragment.behind, visibleLen]
    omega
  · rw [hdt]
    simp only [Fragment.behind, deletedLen]
    omega

section

variable (h : e.Stands start skip (f :: fs) []) (hends : e.Ends i j x y)
  (hheld : HeldBack full i j x y pendingEdit) (hskip : skip ≤ q.reach f)
  (hclamp : f.id = q.stop.1 → f.insertionOffset ≤ q.stop.2)
include h hends hheld hskip hclamp

theorem inserted_of_changed (hvis : f.visible = true) {dy : List UInt8}
    (hdy : dy.length = q.reach f - skip) :
    e.inserted q ⟨start, f⟩ pendingEdit =
      some (⟨{ e.visibleCursor with offset := start.1 + q.reach f }, e.deletedCursor, e.oldEnd,
        e.newEnd + dy.length⟩, some (editAt i j x (y ++ dy))) := by
  have hv := h.visible f rfl
  have hfit := h.visibleFits
  have hle := q.reach_le f
  simp only [visibleLen, List.map_cons, List.sum_cons, Fragment.visibleLen, hvis, if_true, List.length_nil,
    Nat.add_zero] at hv hfit
  have hclamp : q.clamp f start.1 (start.1 + f.visibleLen) = some (start.1 + q.reach f) := by
    rw [Fragment.visibleLen, if_pos hvis]
    exact EditsQuery.clamp_eq hclamp
  rw [inserted, hclamp]
  refine Option.bind_eq_some_iff.mpr ⟨_, rfl, ?_⟩
  refine Option.bind_eq_some_iff.mpr ⟨_, TextCursor.summary_eq (by omega) (by omega), ?_⟩
  rw [show start.1 + q.reach f - e.visibleCursor.offset = dy.length by omega]
  simp only [growNew_held hends hheld]

theorem deleted_of_changed (hvis : f.visible = false) {dx : List UInt8}
    (hdx : dx.length = q.reach f - skip) :
    e.deleted q ⟨start, f⟩ pendingEdit =
      some (⟨e.visibleCursor, { e.deletedCursor with offset := start.2 + q.reach f }, e.oldEnd + dx.length,
        e.newEnd⟩, some (editAt i j (x ++ dx) y)) := by
  have hd := h.deleted f rfl
  have hfit := h.deletedFits
  have hle := q.reach_le f
  simp only [deletedLen, List.map_cons, List.sum_cons, Fragment.deletedLen, hvis, Bool.false_eq_true,
    if_false] at hd hfit
  have hclamp : q.clamp f start.2 (start.2 + f.deletedLen) = some (start.2 + q.reach f) := by
    rw [Fragment.deletedLen, hvis, if_neg Bool.false_ne_true]
    exact EditsQuery.clamp_eq hclamp
  have hat : e.deletedAt start.2 = some { e.deletedCursor with offset := start.2 + skip } := by
    unfold deletedAt
    split
    · rw [TextCursor.seekForward, if_pos ⟨by omega, by omega⟩, show start.2 + skip = start.2 by omega]
    · rw [show start.2 + skip = e.deletedCursor.offset by omega]
  rw [deleted, hclamp]
  refine Option.bind_eq_some_iff.mpr ⟨_, rfl, Option.bind_eq_some_iff.mpr ⟨_, hat, ?_⟩⟩
  refine Option.bind_eq_some_iff.mpr
    ⟨_, TextCursor.summary_eq (by simp only; omega) (by simp only; omega), ?_⟩
  rw [show start.2 + q.reach f - (start.2 + skip) = dx.length by omega]
  simp only [growOld_held hends hheld]

end

/-- **A fragment that changed**: the edit held back grows by what the range has of it. -/
theorem change_of_changed (byte : Lamport → Nat → UInt8) (h : e.Stands start skip (f :: fs) [])
    (hends : e.Ends i j x y) (hheld : HeldBack full i j x y pendingEdit) (hskip : skip ≤ q.reach f)
    (hreach : fs ≠ [] → q.reach f = f.len) (hclamp : f.id = q.stop.1 → f.insertionOffset ≤ q.stop.2)
    (hc : q.Changed f) {dx dy : List UInt8} (hdx : dx = oldTextOf byte q.since q.undos (q.part skip f))
    (hdy : dy = textOf byte true (q.part skip f)) :
    ∃ e', e.change q ⟨start, f⟩ pendingEdit = some (e', some (editAt i j (x ++ dx) (y ++ dy))) ∧
      e'.Ends i j (x ++ dx) (y ++ dy) ∧ e'.Stands (f.behind start) 0 fs [] := by
  have hlen : (bytesOf byte (q.part skip f)).length = q.reach f - skip := by
    rw [length_bytesOf, q.length_part]
  have hwas : f.wasVisible q.since q.undos = !f.visible := Bool.eq_not_of_ne hc
  rw [EditsQuery.oldTextOf_part, hwas] at hdx
  rw [EditsQuery.textOf_part] at hdy
  cases hvis : f.visible with
  | true =>
    rw [hvis, if_neg (by simp)] at hdx
    rw [hvis, if_pos rfl] at hdy
    rw [← hdy] at hlen
    subst hdx
    have hchange : e.change q ⟨start, f⟩ pendingEdit = e.inserted q ⟨start, f⟩ pendingEdit := by
      simp [change, hwas, hvis]
    rw [hchange, inserted_of_changed h hends hheld hskip hclamp hvis hlen, List.append_nil]
    refine ⟨_, rfl, ⟨by simp [hends.old], by simp [hends.new, Nat.add_assoc]⟩,
      h.move hreach rfl (by rw [hvis, if_pos rfl]) rfl ?_⟩
    have hd := h.deleted f rfl
    rw [hvis, if_pos rfl] at hd
    exact Nat.le_add_right_of_le (by simp only; omega)
  | false =>
    rw [hvis, if_pos (by simp)] at hdx
    rw [hvis, if_neg Bool.false_ne_true] at hdy
    rw [← hdx] at hlen
    subst hdy
    have hchange : e.change q ⟨start, f⟩ pendingEdit = e.deleted q ⟨start, f⟩ pendingEdit := by
      simp [change, hwas, hvis]
    rw [hchange, deleted_of_changed h hends hheld hskip hclamp hvis hlen, List.append_nil]
    refine ⟨_, rfl, ⟨by simp [hends.old, Nat.add_assoc], by simp [hends.new]⟩,
      h.move hreach rfl ?_ rfl ?_⟩
    · have hv := h.visible f rfl
      simp only [hvis, Bool.false_eq_true, if_false, List.length_nil, Nat.add_zero] at hv ⊢
      exact hv
    · rw [Fragment.deletedLen, hvis, if_neg Bool.false_ne_true]
      exact Nat.add_le_add_left (q.reach_le f) _

/-! ## All of a range -/

/-- A changed fragment is an edit unless the range has nothing of it. -/
theorem changed_part (byte : Lamport → Nat → UInt8) (hc : q.Changed f) :
    (oldTextOf byte q.since q.undos (q.part skip f) ≠ [] ∨ textOf byte true (q.part skip f) ≠ []) ↔
      q.part skip f ≠ [] := by
  have hbytes : bytesOf byte (q.part skip f) = [] ↔ q.part skip f = [] := List.map_eq_nil_iff
  rw [EditsQuery.oldTextOf_part, EditsQuery.textOf_part]
  unfold EditsQuery.Changed at hc
  cases hw : f.wasVisible q.since q.undos <;> cases hv : f.visible <;> simp_all

theorem same_part (byte : Lamport → Nat → UInt8) (hsame : ¬ q.Changed f) :
    oldTextOf byte q.since q.undos (q.part skip f) = textOf byte true (q.part skip f) := by
  rw [EditsQuery.oldTextOf_part, EditsQuery.textOf_part, not_ne_iff.mp hsame]

theorem isApart_iff : e.isApart pendingEdit = true ↔ ∃ edit, pendingEdit = some edit ∧ edit.new.stop < e.newEnd := by
  cases pendingEdit <;> simp [isApart]

theorem scan_past : ∀ {stops : List FilterStop}, q.start.1 ≤ q.stop.1 →
    (∀ stop ∈ stops, q.stop.1 < stop.fragment.id) → scan q stops e pendingEdit = some pendingEdit.toList
  | [], _, _ => rfl
  | stop :: stops, hle, h => by
      have hlt := h stop (by simp)
      rw [scan, if_neg (not_lt_of_gt (lt_of_le_of_lt hle hlt)), if_pos hlt]

theorem scan_before : ∀ {stops rest : List FilterStop}, (∀ stop ∈ stops, stop.fragment.id < q.start.1) →
    scan q (stops ++ rest) e pendingEdit = scan q rest e pendingEdit
  | [], _, _ => rfl
  | stop :: stops, rest, h => by
      rw [List.cons_append, scan, if_pos (h stop (by simp))]
      exact scan_before fun s hs => h s (List.mem_cons_of_mem _ hs)

/-- The walk over some fragments, wherever it stands, yields what has changed. -/
def Scans (byte : Lamport → Nat → UInt8) (q : EditsQuery) (full : Prop) (post : List FilterStop)
    (fs : List Fragment) : Prop :=
  ∀ (e : Edits) (start : Nat × Nat) (skip i j : Nat) (x y g : List UInt8) (pendingEdit : Option Edit),
    e.Stands start skip fs g → (∀ f ∈ fs.head?, skip ≤ q.reach f) → (full → skip = 0) → e.Ends i j x y →
      HeldBack full i j x y pendingEdit →
        ∃ edits, scan q (touchedFrom q.since start fs ++ post) e pendingEdit = some edits ∧
          Yields full i j x y g (oldTextOf byte q.since q.undos (q.parts skip fs))
            (textOf byte true (q.parts skip fs)) (q.ChangedIn skip fs) edits

/-- **One turn of the walk**, at a fragment it has caught up with. -/
theorem scan_turn {post : List FilterStop} (hscan : Scans byte q full post fs) (hcov : q.Covers (f :: fs))
    (hfull : full → ∀ k ∈ f :: fs, 0 < q.reach k) (h : e.Stands start skip (f :: fs) [])
    (hskip : skip ≤ q.reach f) (hzero : full → skip = 0) (hends : e.Ends i j x y)
    (hheld : HeldBack full i j x y pendingEdit) :
    ∃ edits, ((e.change q ⟨start, f⟩ pendingEdit).bind fun r =>
        scan q (touchedFrom q.since (f.behind start) fs ++ post) r.1 r.2) = some edits ∧
      Yields full i j x y [] (oldTextOf byte q.since q.undos (q.parts skip (f :: fs)))
        (textOf byte true (q.parts skip (f :: fs))) (q.ChangedIn skip (f :: fs)) edits := by
  have hreach := hcov.reach_eq
  simp only [EditsQuery.parts, oldTextOf_append, textOf_append]
  by_cases hc : q.Changed f
  · obtain ⟨e', hchange, hends', hstands⟩ := change_of_changed byte h hends hheld hskip hreach
      (hcov.clamp f (by simp)) hc rfl rfl
    have hheld' : HeldBack full i j (x ++ oldTextOf byte q.since q.undos (q.part skip f))
        (y ++ textOf byte true (q.part skip f)) (some (editAt i j (x ++ oldTextOf byte q.since q.undos (q.part skip f))
          (y ++ textOf byte true (q.part skip f)))) := by
      refine ⟨rfl, fun hf => ?_⟩
      have hpart : q.part skip f ≠ [] := by
        refine List.ne_nil_of_length_pos ?_
        rw [q.length_part, hzero hf]
        exact hfull hf f (by simp)
      exact ((changed_part byte hc).mpr hpart).imp (fun hne heq => hne (List.append_eq_nil_iff.mp heq).2)
        (fun hne heq => hne (List.append_eq_nil_iff.mp heq).2)
    obtain ⟨edits, hedits, hyields⟩ := hscan e' (f.behind start) 0 i j _ _ [] _ hstands (fun _ _ => Nat.zero_le _)
      (fun _ => rfl) hends' hheld'
    refine ⟨edits, by rw [hchange]; exact hedits, ?_⟩
    have := hyields.change
    rwa [changed_part byte hc, ← and_iff_right_of_imp (a := q.Changed f) (b := q.part skip f ≠ []) (fun _ => hc)] at this
  · obtain ⟨edits, hedits, hyields⟩ := hscan e (f.behind start) 0 i j x y _ pendingEdit (h.pass byte hskip hreach)
      (fun _ _ => Nat.zero_le _) (fun _ => rfl) hends hheld
    refine ⟨edits, by rw [change_of_same hc]; exact hedits, ?_⟩
    have := hyields.copy
    simpa only [same_part byte hc, EditsQuery.ChangedIn, hc, false_and, false_or] using this

/-- **The walk over the fragments of a range** yields what has changed in them. -/
theorem scan_spec {post : List FilterStop} (hle : q.start.1 ≤ q.stop.1)
    (hpost : ∀ stop ∈ post, q.stop.1 < stop.fragment.id) : ∀ {fs : List Fragment}, q.Covers fs →
      (full → ∀ k ∈ fs, 0 < q.reach k) → Scans byte q full post fs := by
  intro fs
  induction fs with
  | nil =>
    intro _ _ e start skip i j x y g pendingEdit _ _ _ _ hheld
    exact ⟨_, scan_past hle hpost, Yields.done hheld⟩
  | cons f fs ih =>
    intro hcov hfull e start skip i j x y g pendingEdit h hskip hzero hends hheld
    have hscan := ih hcov.tail (fun hf k hk => hfull hf k (List.mem_cons_of_mem _ hk))
    have hskip := hskip f rfl
    rw [touchedFrom]
    cases ht : f.touchedSince q.since with
    | false =>
      -- the filter leaves it out
      have hc := hcov.same f (by simp) ht
      obtain ⟨edits, hedits, hyields⟩ := hscan e (f.behind start) 0 i j x y _ pendingEdit
        (h.pass byte hskip hcov.reach_eq) (fun _ _ => Nat.zero_le _) (fun _ => rfl) hends hheld
      refine ⟨edits, hedits, ?_⟩
      have := hyields.copy
      simpa only [EditsQuery.parts, oldTextOf_append, textOf_append, same_part byte hc, EditsQuery.ChangedIn, hc,
        false_and, false_or] using this
    | true =>
      obtain ⟨hcatch, hstands⟩ := h.catchUp
      have hrun : ∀ p, scan q (⟨start, f⟩ :: (touchedFrom q.since (f.behind start) fs ++ post)) e p =
          if (e.ahead g.length).isApart p then
            ((e.ahead g.length).change q ⟨start, f⟩ none).bind fun r =>
              (scan q (touchedFrom q.since (f.behind start) fs ++ post) r.1 r.2).map fun edits => p.toList ++ edits
          else ((e.ahead g.length).change q ⟨start, f⟩ p).bind fun r =>
            scan q (touchedFrom q.since (f.behind start) fs ++ post) r.1 r.2 := fun p => by
        rw [scan, if_neg (not_lt_of_ge (hcov.start_le f (by simp))),
          if_neg (not_lt_of_ge (hcov.le_stop f (by simp))), hcatch]
        rfl
      show ∃ edits, scan q (⟨start, f⟩ :: (touchedFrom q.since (f.behind start) fs ++ post)) e pendingEdit =
        some edits ∧ _
      rw [hrun]
      cases pendingEdit with
      | none =>
        obtain ⟨rfl, rfl⟩ := hheld
        have hends' : (e.ahead g.length).Ends (i + g.length) (j + g.length) [] [] :=
          ⟨by simp [ahead, hends.old], by simp [ahead, hends.new]⟩
        obtain ⟨edits, hedits, hyields⟩ := scan_turn hscan hcov hfull hstands hskip hzero hends'
          (show HeldBack full _ _ [] [] none from ⟨rfl, rfl⟩)
        exact ⟨edits, hedits, hyields.caughtUp⟩
      | some edit =>
        obtain ⟨rfl, hne⟩ := hheld
        by_cases hg : g = []
        · subst hg
          have hends' : (e.ahead 0).Ends i j x y := hends
          rw [if_neg (by simp [isApart_iff, editAt, ahead, hends.new])]
          exact scan_turn hscan hcov hfull hstands hskip hzero hends' ⟨rfl, hne⟩
        · have hpos := List.length_pos_of_ne_nil hg
          have hends' : (e.ahead g.length).Ends (i + x.length + g.length) (j + y.length + g.length) [] [] :=
            ⟨by simp [ahead, hends.old], by simp [ahead, hends.new]⟩
          rw [if_pos (isApart_iff.mpr ⟨_, rfl, by simp only [editAt, ahead, hends.new]; omega⟩)]
          obtain ⟨edits, hedits, hyields⟩ := scan_turn hscan hcov hfull hstands hskip hzero hends'
            (show HeldBack full _ _ [] [] none from ⟨rfl, rfl⟩)
          refine ⟨editAt i j x y :: edits, ?_, hyields.emit hne hg⟩
          obtain ⟨r, hr, hrest⟩ := Option.bind_eq_some_iff.mp hedits
          refine Option.bind_eq_some_iff.mpr ⟨r, hr, ?_⟩
          rw [hrest]
          rfl

end Edits

end SpkEditor
