import SpkEditor.SumTree.Find

/-!
# Cursors and lists

A cursor over a tree that fits its stack is a linear scan of the tree's items, whatever is
called on it (`cursor_scans`). `find` and `find_with_prev` agree with `seek`. `find_exact`
gives an item only if that ends at the target: with a bias to the left this is the item of
`seek`, when `seek` has met the target.
-/

namespace SpkEditor

open SumTree

variable {T S D E : Type} [Summary S] [Item T S] [Dimension D S] [Dimension E S]

/-- Every summary is a dimension of itself. -/
instance : Dimension S S := ⟨Summary.zero, Summary.addSummary⟩

instance [LawfulSummary S] : LawfulDimension S S where
  add_add := LawfulSummary.add_assoc
  zero_zero := LawfulSummary.zero_add _

/-- What is found without a cursor is what a cursor shows after a seek that says whether the target was met. -/
structure FindsLike (t : SumTree T S) (target : D → Ordering) (bias : Bias) (c : TreeCursor T S D) (exact : Bool) : Prop where
  start : (find t target bias).1 = c.start
  «end» : some (find t target bias).2.1 = c.end
  item : some (find t target bias).2.2 = c.item
  withPrev : ∃ prev, c.prevItem = some prev ∧ findWithPrev t target bias =
    some ((find t target bias).1, (find t target bias).2.1, (find t target bias).2.2.map fun item => (prev, item))
  exactLeft : bias = .left →
    if exact then findExact t target bias = find t target bias else (findExact t target bias).2.2 = none
  exactSound : ∀ start itemEnd item, findExact t target bias = (start, itemEnd, some item) →
    target itemEnd = .eq ∧ ∃ k, t.flat[k]? = some item ∧ start = cum (t.flat.take k) ∧ itemEnd = cum (t.flat.take (k + 1))

variable [LawfulSummary S] [LawfulDimension D S] [LawfulDimension E S]

omit [Dimension E S] [LawfulDimension E S] in
theorem findExact_of_seek {t : SumTree T S} (hok : t.Ok) {target : D → Ordering} (ho : Ordered t.flat target) :
    if decide (target (met t.flat .left (scan t.flat target .left 0)) = .eq) then
      findExact t target .left = find t target .left else (findExact t target .left).2.2 = none := by
  have hexact := findExact_left hok ho rfl
  have hlands := scan_lands target .left (Nat.zero_le t.flat.length)
  have hmet : (met t.flat .left (scan t.flat target .left 0) : D) = cum (t.flat.take (scan t.flat target .left 0 + 1)) :=
    rfl
  rw [hmet]
  by_cases heq : target (cum (t.flat.take (scan t.flat target .left 0 + 1))) = .eq
  · rw [if_pos (by simpa using heq)]
    by_cases hlt : scan t.flat target .left 0 < t.flat.length
    · rw [if_pos ⟨hlt, heq⟩] at hexact
      rw [hexact, (find_eq hok ho .left).1]
      rfl
    · -- the target is met at the end without an item: there are no items
      have hend : scan t.flat target .left 0 = t.flat.length := Nat.le_antisymm hlands.le_length (Nat.le_of_not_lt hlt)
      have hnil : t.flat.length = 0 := by
        by_contra hne
        have hpass := hlands.passed (by omega)
        rw [hend, List.take_length] at hpass
        rw [hend, List.take_of_length_le (Nat.le_succ _)] at heq
        rw [heq] at hpass
        simp [passes] at hpass
      have hnew : t = SumTree.new := by
        rcases hok with rfl | ⟨h, hwf⟩
        · rfl
        · exact absurd (List.length_eq_zero_iff.1 hnil) hwf.flat_ne_nil
      rw [findExact, find, (find_end hok (.inr hnew) true).2.1, (find_end hok (.inr hnew) false).2.1]
  · rw [if_neg (by simpa using heq)]
    rwa [if_neg fun h => heq h.2] at hexact

theorem cursor_scans {t : SumTree T S} (hok : t.Ok) (hcap : t.height < STACK_CAPACITY) :
    (∀ (calls : List (CursorCall D)) (p : Place) (answers : List (CursorAnswer (List T) E)),
      (∀ call ∈ calls, call.Ordered t.flat) → Place.fresh.calls t.flat calls = some (p, answers) →
      ∃ c answers', (TreeCursor.new t).calls calls = some (c, answers') ∧ List.Forall₂ CursorAnswer.Agrees answers' answers ∧
        (p ≠ .fresh → Shows c t.flat p)) ∧
    ∀ (target : D → Ordering) (bias : Bias), Ordered t.flat target → target (Dimension.zero S) ≠ .lt →
      ∃ c exact, (TreeCursor.new t).seek target bias = some (c, exact) ∧ FindsLike t target bias c exact := by
  refine ⟨?_, ?_⟩
  · intro calls p answers ho hcalls
    obtain ⟨c, answers', hc, hs, hagree⟩ := TreeCursor.calls_spec hok hcap .fresh ho hcalls
    refine ⟨c, answers', hc, hagree, ?_⟩
    intro hfresh
    cases p with
    | fresh => exact absurd rfl hfresh
    | before => exact TreeCursor.shows_before hok hs
    | «at» i => exact TreeCursor.shows_at hok hs
    | lost => exact absurd rfl (Place.calls_ne_lost hcalls (by simp))
  · intro target bias ho hge
    have hforward : Place.fresh.forward t.flat target bias = some (0, scan t.flat target bias 0) := by
      rw [Place.forward, Place.index, Option.bind_some, if_neg (by simpa [cum, after] using hge)]
    obtain ⟨c, a, hseek, hs, -⟩ := TreeCursor.forward_spec (measures_of_lawful _ _ _) TreeCursor.gathers_nothing hok hcap .fresh ho trivial hforward
    have hshows := TreeCursor.shows_at hok hs
    obtain ⟨hfind, hprev⟩ := find_eq hok ho bias
    refine ⟨c, _, by rw [TreeCursor.seek, TreeCursor.reset_eq .fresh, hseek]; rfl, ?_⟩
    constructor
    · rw [hfind, hshows.start]
    · rw [hfind, hshows.end]
    · rw [hfind, hshows.item]
    · exact ⟨_, hshows.prevItem, by rw [hfind, hprev]⟩
    · rintro rfl
      exact findExact_of_seek hok ho
    · intro start itemEnd item hexact
      exact findExact_sound hok hexact

/-! ## Items with a width -/

structure Width where
  value : Nat

namespace Width

instance : Summary Width := ⟨⟨0⟩, fun a b => ⟨a.value + b.value⟩⟩

instance : Item Width Width := ⟨id⟩

instance : LawfulSummary Width where
  add_assoc a b c := congrArg Width.mk (add_assoc a.value b.value c.value)
  zero_add a := congrArg Width.mk (zero_add a.value)

theorem le_after (d : Width) (items : List Width) : d.value ≤ (after d items).value := by
  induction items generalizing d with
  | nil => exact le_refl _
  | cons x items ih => exact le_trans (Nat.le_add_right d.value x.value) (ih _)

theorem ordered (n : Nat) (l : List Width) : Ordered l fun d : Width => compare n d.value := by
  intro i j hij _
  have hle : (cum (l.take i) : Width).value ≤ (cum (l.take j) : Width).value := by
    have htake : l.take j = l.take i ++ (l.drop i).take (j - i) := by rw [← List.take_add, Nat.add_sub_cancel' hij]
    rw [htake, cum_append]
    exact le_after _ _
  simp only [Nat.compare_eq_gt, Nat.compare_eq_lt]
  omega

/-- Two leaves. -/
def rows : SumTree Width Width :=
  internal 1 ⟨5⟩ [⟨3⟩, ⟨2⟩] [leaf ⟨3⟩ [⟨1⟩, ⟨2⟩] [⟨1⟩, ⟨2⟩], leaf ⟨2⟩ [⟨2⟩] [⟨2⟩]]

theorem rows_ok : rows.Ok := by
  have h₁ : Wf 0 (leaf ⟨3⟩ [⟨1⟩, ⟨2⟩] [⟨1⟩, ⟨2⟩] : SumTree Width Width) :=
    @Wf.leaf Width Width _ _ [⟨1⟩, ⟨2⟩] (by simp) (by simp [TREE_BASE])
  have h₂ : Wf 0 (leaf ⟨2⟩ [⟨2⟩] [⟨2⟩] : SumTree Width Width) :=
    @Wf.leaf Width Width _ _ [⟨2⟩] (by simp) (by simp [TREE_BASE])
  have hrows : Wf 1 rows :=
    @Wf.node Width Width _ _ 0 [leaf ⟨3⟩ [⟨1⟩, ⟨2⟩] [⟨1⟩, ⟨2⟩], leaf ⟨2⟩ [⟨2⟩] [⟨2⟩]] _ (by simp) (by simp [TREE_BASE])
      (by simp [h₁, h₂])
  exact .inr ⟨1, hrows⟩

/-- One item, so deep. -/
def tower : Nat → SumTree Width Width
  | 0 => leaf ⟨1⟩ [⟨1⟩] [⟨1⟩]
  | n + 1 => internal (n + 1) (tower n).summary [(tower n).summary] [tower n]

theorem tower_wf (n : Nat) : Wf n (tower n) := by
  induction n with
  | zero => exact @Wf.leaf Width Width _ _ [⟨1⟩] (by simp) (by simp [TREE_BASE])
  | succ n ih =>
    have h := @Wf.node Width Width _ _ n [tower n] _ (by simp) (by simp [TREE_BASE]) (by simpa using ih)
    rwa [List.map_singleton, sum_singleton] at h

end Width

open Width

theorem cursor_scans_rows :
    ∃ c answers', (TreeCursor.new rows : TreeCursor Width Width Width).calls
        [.next, .seekForward (fun d => compare 1 d.value) .right, .slice (fun d => compare 5 d.value) .right, .prev,
          .prev, .summary (fun d => compare 4 d.value) .left] = some (c, answers') ∧
      List.Forall₂ CursorAnswer.Agrees answers'
        [.moved, .found true, .sliced [⟨2⟩, ⟨2⟩], .moved, .moved, .summed (⟨2⟩ : Width)] ∧
      Shows c rows.flat (.at 2) := by
  obtain ⟨c, answers', hc, hagree, hshows⟩ := (cursor_scans (D := Width) (E := Width) rows_ok (by decide)).1
    [.next, .seekForward (fun d => compare 1 d.value) .right, .slice (fun d => compare 5 d.value) .right, .prev,
      .prev, .summary (fun d => compare 4 d.value) .left]
    (.at 2) [.moved, .found true, .sliced [⟨2⟩, ⟨2⟩], .moved, .moved, .summed ⟨2⟩]
    (by simp [CursorCall.Ordered, ordered]) rfl
  exact ⟨c, answers', hc, hagree, hshows (by simp)⟩

/-- `find_exact` does not find the item of `seek` where that does not end at the target. A cursor over a tree that is
higher than its stack has room for cannot be moved at all. -/
theorem cursor_find_exact_differs :
    (∃ c, (TreeCursor.new rows : TreeCursor Width Width Width).seek (fun d => compare 2 d.value) .left = some (c, false) ∧
      c.item = some (some ⟨2⟩) ∧ (findExact rows (fun d : Width => compare 2 d.value) .left).2.2 = none) ∧
    (tower 16).Ok ∧ (TreeCursor.new (tower 16) : TreeCursor Width Width Width).next.isNone :=
  ⟨⟨_, rfl, rfl, rfl⟩, .inr ⟨16, tower_wf 16⟩, rfl⟩

end SpkEditor
