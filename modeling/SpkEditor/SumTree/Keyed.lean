import SpkEditor.Lib.KeyedList
import SpkEditor.SumTree.CursorRefines

/-!
# Trees in key order

The key of an item is a dimension of the tree as well: the position behind an item is its key. This
is only so while keys increase, and then a seek with a bias to the left goes to the first item whose
key is not before the one that is sought (`keyed_scan`).
-/

namespace SpkEditor

open SumTree KeyedList List Option

/-- `KeyedItem`. -/
class KeyedItem (T : Type) (K : outParam Type) where
  key : T → K

/-- What is known of keys: the zero of the dimension comes before all of them, and items in key order measure up to
the key of the last. -/
class LawfulKey (T S K : Type) [Summary S] [Item T S] [LinearOrder K] [Dimension K S] [KeyedItem T K] : Prop where
  zero_le : ∀ k : K, (Dimension.zero S : K) ≤ k
  add_sorted : ∀ (d : K) (items : List T) (x : T), (∀ y ∈ items ++ [x], d ≤ KeyedItem.key y) →
    Sorted KeyedItem.key (items ++ [x]) → Dimension.addSummary d (sumOf (items ++ [x]) : S) = KeyedItem.key x

open KeyedItem (key)

variable {T S K : Type} [Summary S] [Item T S] [LinearOrder K] [Dimension K S] [KeyedItem T K] [LawfulSummary S]
  [LawfulKey T S K]

section

variable {pre l : List T} {x : T} {i j : Nat}

omit [Summary S] [LinearOrder K] [KeyedItem T K] [LawfulSummary S] [LawfulKey T S K] in
theorem cum_snoc (pre : List T) (x : T) :
    (cum (S := S) (pre ++ [x]) : K) = Dimension.addSummary (cum (S := S) pre) (Item.summary x : S) := by
  rw [cum_append]
  rfl

theorem cum_key (hs : Sorted key (pre ++ [x])) :
    (cum (S := S) pre : K) ≤ key x ∧ (cum (S := S) (pre ++ [x]) : K) = key x := by
  have hle : (cum (S := S) pre : K) ≤ key x := by
    induction pre using List.reverseRecOn generalizing x with
    | nil => exact LawfulKey.zero_le T (S := S) _
    | append_singleton pre y ih =>
      have hpre : Sorted key (pre ++ [y]) := hs.sublist (sublist_append_left _ _)
      have hyx : key y < key x := (List.pairwise_append.mp hs).2.2 y (by simp) x (by simp)
      rw [cum_snoc]
      have h := LawfulKey.add_sorted (S := S) (cum (S := S) pre : K) [] y
        (fun z hz => by rw [List.mem_singleton.mp hz]; exact ih hpre) (pairwise_singleton _ _)
      rw [nil_append, sumOf, map_singleton, sum_singleton] at h
      rw [h]
      exact le_of_lt hyx
  refine ⟨hle, ?_⟩
  have h := LawfulKey.add_sorted (S := S) (cum (S := S) pre : K) [] x
    (fun z hz => by rw [List.mem_singleton.mp hz]; exact hle) (pairwise_singleton _ _)
  rw [nil_append, sumOf, map_singleton, sum_singleton] at h
  rw [cum_snoc, h]

section

variable (hs : Sorted key l)
include hs

theorem cum_take_key (hx : l[i]? = some x) : (cum (S := S) (l.take (i + 1)) : K) = key x := by
  have htake : l.take (i + 1) = l.take i ++ [x] := by rw [take_add_one, hx]; rfl
  rw [htake]
  exact (cum_key (by rw [← htake]; exact hs.sublist (take_sublist _ _))).2

theorem cum_le_key (hx : l[i]? = some x) : (cum (S := S) (l.take i) : K) ≤ key x := by
  have htake : l.take (i + 1) = l.take i ++ [x] := by rw [take_add_one, hx]; rfl
  exact (cum_key (by rw [← htake]; exact hs.sublist (take_sublist _ _))).1

theorem cum_mono (hij : i ≤ j) (hj : j ≤ l.length) :
    (cum (S := S) (l.take i) : K) ≤ cum (S := S) (l.take j) := by
  induction j, hij using Nat.le_induction with
  | base => exact le_refl _
  | succ j hij ih =>
    obtain ⟨x, hx⟩ : ∃ x, l[j]? = some x := ⟨_, getElem?_eq_getElem (by omega)⟩
    refine le_trans (ih (by omega)) ?_
    rw [cum_take_key hs hx]
    exact cum_le_key hs hx

theorem keyed_ordered (k : K) : Ordered (S := S) l (compare k) := by
  intro i j hij hj
  have hle := cum_mono (S := S) hs hij hj
  rw [compare_gt_iff_gt, compare_gt_iff_gt, compare_lt_iff_lt, compare_lt_iff_lt]
  exact ⟨fun h => lt_of_le_of_lt hle h, fun h => lt_of_lt_of_le h hle⟩

/-- The first item whose key is not before the one that is sought. -/
theorem keyed_scan (k : K) (hi : i ≤ l.length) :
    scan (S := S) l (compare k) .left i = i + ((l.drop i).takeWhile fun x => decide (key x < k)).length := by
  have hsplit := (takeWhile_append_dropWhile (p := fun x => decide (key x < k)) (l := l.drop i)).symm
  generalize hlt : (l.drop i).takeWhile (fun x => decide (key x < k)) = lt at hsplit ⊢
  generalize hge : (l.drop i).dropWhile (fun x => decide (key x < k)) = ge at hsplit
  have hlen := congrArg List.length hsplit
  rw [length_drop, length_append] at hlen
  have hget : ∀ n, l[i + n]? = (lt ++ ge)[n]? := fun n => by rw [← hsplit, getElem?_drop]
  refine (SeekLands.eq_scan (keyed_ordered hs k) ⟨Nat.le_add_right _ _, by omega, ?_, ?_⟩).symm
  · intro hpos
    obtain ⟨n, hn⟩ : ∃ n, lt.length = n + 1 := ⟨lt.length - 1, by omega⟩
    obtain ⟨x, hx⟩ : ∃ x, lt[n]? = some x := ⟨_, getElem?_eq_getElem (by omega)⟩
    have hxk : key x < k := by
      have := mem_takeWhile_imp (hlt ▸ mem_of_getElem? hx)
      simpa using this
    have hx' : l[i + n]? = some x := by rw [hget, getElem?_append_left (by omega), hx]
    rw [hn, ← add_assoc, cum_take_key hs hx']
    simpa [passes, compare_gt_iff_gt] using hxk
  · intro hlt'
    obtain ⟨x, hx⟩ : ∃ x, ge[0]? = some x := ⟨_, getElem?_eq_getElem (by omega)⟩
    have hxk : ¬ key x < k := by
      have := head?_dropWhile_not (fun x => decide (key x < k)) (l.drop i)
      rw [hge, head?_eq_getElem?, hx] at this
      simpa using this
    have hx' : l[i + lt.length]? = some x := by
      rw [hget, getElem?_append_right (le_refl _), Nat.sub_self, hx]
    rw [cum_take_key hs hx']
    cases hc : compare k (key x) with
    | gt => exact absurd (compare_gt_iff_gt.mp hc) hxk
    | lt => rfl
    | eq => rfl

end

end

/-! ## Cursors -/

section

variable {t : SumTree T S} {c : TreeCursor T S K} {p : Place} {i : Nat}

theorem keyed_measures (hs : Sorted key t.flat) (target : K → Ordering) (bias : Bias) : Measures t target bias := by
  intro h u pre post hwf hflat _
  obtain ⟨items, x, hux⟩ := (eq_nil_or_concat' u.flat).resolve_left hwf.flat_ne_nil
  rw [hux] at hflat
  rw [hwf.summary_eq, hux]
  have hpre : Sorted key (pre ++ (items ++ [x])) := by
    rw [hflat] at hs
    exact hs.sublist (sublist_append_left _ _)
  rw [← append_assoc, (cum_key (by rwa [append_assoc])).2]
  refine LawfulKey.add_sorted _ _ _ ?_ (hpre.sublist (sublist_append_right _ _))
  intro y hy
  obtain ⟨n, hn⟩ := mem_iff_getElem?.mp hy
  have hget : (pre ++ (items ++ [x]))[pre.length + n]? = some y := by
    rw [getElem?_append_right (Nat.le_add_right _ _), Nat.add_sub_cancel_left, hn]
  have hlt := (List.getElem?_eq_some_iff.mp hget).1
  have hmono := cum_mono (S := S) hpre (Nat.le_add_right pre.length n) (le_of_lt hlt)
  rw [take_left] at hmono
  exact le_trans hmono (cum_le_key hpre hget)

theorem keyed_forward {A : Type} {agg : SeekAggregate T S A} {out : A → List T → Prop}
    {inLeaf : A → List T → List T → Prop} (hg : Gathers agg out inLeaf) (hok : t.Ok) (hcap : t.height < STACK_CAPACITY)
    (hsorted : Sorted key t.flat) (hs : Stands t c p) (hi : p.index = some i) {k : K}
    (hk : (cum (S := S) (t.flat.take i) : K) ≤ k) {a : A} (ha : out a []) {passed : List T}
    (hpassed : (t.flat.drop i).takeWhile (fun x => decide (key x < k)) = passed) :
    ∃ c' a' b, c.seekInternal agg (compare k) .left a = some (c', a', b) ∧ Stands t c' (.at (i + passed.length)) ∧
      out a' passed := by
  have hle : i ≤ t.flat.length := by
    have := hs.behind_le
    cases p with
    | fresh => exact (some.inj hi) ▸ Nat.zero_le _
    | «at» j => exact (some.inj hi) ▸ this
    | before => simp [Place.index] at hi
    | lost => simp [Place.index] at hi
  have hforward : p.forward t.flat (compare k) .left = some (i, i + passed.length) := by
    rw [Place.forward, hi, bind_some, if_neg (by rw [compare_lt_iff_lt]; exact not_lt.mpr hk),
      keyed_scan hsorted k hle, hpassed]
  obtain ⟨c', a', hseek, hs', hout⟩ := TreeCursor.forward_spec (keyed_measures hsorted _ _) hg hok hcap hs
    (keyed_ordered hsorted k) ha hforward
  refine ⟨c', a', _, hseek, hs', ?_⟩
  rw [drop_take, Nat.add_sub_cancel_left, ← hpassed,
    ← List.prefix_iff_eq_take.mp ( takeWhile_prefix _)] at hout
  rwa [← hpassed]

section

variable (hok : t.Ok) (hcap : t.height < STACK_CAPACITY) (hsorted : Sorted key t.flat)
include hok hcap hsorted

theorem keyed_slice (hs : Stands t c p)
    (hi : p.index = some i) {k : K} (hk : (cum (S := S) (t.flat.take i) : K) ≤ k) {passed : List T}
    (hpassed : (t.flat.drop i).takeWhile (fun x => decide (key x < k)) = passed) :
    ∃ c' slice, c.slice (compare k) .left = some (c', slice) ∧ Stands t c' (.at (i + passed.length)) ∧ slice.Ok ∧
      slice.flat = passed := by
  obtain ⟨c', a', b, hseek, hs', hout⟩ := keyed_forward TreeCursor.gathers_slice (a := ⟨SumTree.new, [], [], Summary.zero⟩)
    hok hcap hsorted hs hi hk (.mk (.inl rfl) (Nat.zero_le _)) hpassed
  exact ⟨c', a'.tree, by rw [TreeCursor.slice, hseek]; rfl, hs', hout.tree⟩

theorem keyed_seek_zero :
    ∃ c b, (TreeCursor.new t : TreeCursor T S K).seek (compare (Dimension.zero S)) .left = some (c, b) ∧
      Stands t c (.at 0) := by
  have hnone : (t.flat.drop 0).takeWhile (fun x => decide (key x < (Dimension.zero S : K))) = [] := by
    rw [drop_zero]
    cases t.flat with
    | nil => rfl
    | cons x l => rw [takeWhile_cons_of_neg (by simpa using LawfulKey.zero_le T (S := S) (key x))]
  obtain ⟨c, a, b, hseek, hs, -⟩ := keyed_forward TreeCursor.gathers_nothing (a := ()) hok hcap hsorted .fresh rfl
    (LawfulKey.zero_le T (S := S) _) trivial hnone
  refine ⟨c, b, ?_, hs⟩
  rw [TreeCursor.seek, TreeCursor.reset_eq (Stands.fresh), hseek]
  rfl

end

omit [LawfulSummary S] in
theorem seek_down_full {u : SumTree T S} {rest : List (StackEntry T S K)} {h : Nat} {pre post : List T}
    (hp : Path t rest h u pre post) (hrest : rest.length < STACK_CAPACITY) (hcap : STACK_CAPACITY ≤ t.height)
    (e : Bool) (fuel : Nat) :
    loop (TreeCursor.seekTurn TreeCursor.noAggregate (compare (Dimension.zero S : K)) .left) fuel
      (⟨t, ⟨u, 0, cum pre⟩ :: rest, cum pre, true, e⟩, (), false) = none := by
  induction h generalizing u rest pre post fuel with
  | zero =>
    have := hp.length_eq
    omega
  | succ h ih =>
    cases fuel with
    | zero => rfl
    | succ fuel =>
      obtain ⟨ts, rfl, hne, _, _⟩ := hp.wf.children
      obtain ⟨v, ts, rfl⟩ := exists_cons_of_ne_nil hne
      have hp' := hp.step [] v ts rfl
      simp only [length_nil, flatAll, append_nil] at hp'
      have hpass : passes (compare (Dimension.zero S : K) (Dimension.addSummary (cum pre) v.summary)) .left = false := by
        cases hc : compare (Dimension.zero S : K) (Dimension.addSummary (cum pre) v.summary) with
        | gt => exact absurd (compare_gt_iff_gt.mp hc) (not_lt.mpr (LawfulKey.zero_le T _))
        | lt => rfl
        | eq => rfl
      by_cases hroom : rest.length + 1 < STACK_CAPACITY
      · have hdown := ih hp' hroom fuel
        simp only [loop, TreeCursor.seekTurn, Bool.false_eq_true, if_false, drop_zero, map_cons,
          zip_cons_cons, TreeCursor.seekChildren, hpass, bind_some]
        rw [TreeCursor.pushEntry_eq (by simpa using hroom)]
        exact hdown
      · simp only [loop, TreeCursor.seekTurn, Bool.false_eq_true, if_false, drop_zero, map_cons,
          zip_cons_cons, TreeCursor.seekChildren, hpass, bind_some, TreeCursor.pushEntry,
          length_cons, if_neg hroom, map_none]

omit [LawfulSummary S] in
theorem keyed_seek_full (hok : t.Ok) (hcap : STACK_CAPACITY ≤ t.height) :
    (TreeCursor.new t : TreeCursor T S K).seek (compare (Dimension.zero S)) .left = none := by
  rcases hok with rfl | ⟨h, hwf⟩
  · exact absurd (show STACK_CAPACITY ≤ 0 from hcap) (by decide)
  · have hloop := seek_down_full (.root hwf) (show 0 < STACK_CAPACITY by decide) hcap t.isEmpty (2 * t.nodes + 2)
    have hge : ¬ compare (Dimension.zero S : K) (Dimension.zero S) = .lt := by
      rw [compare_lt_iff_lt]
      exact lt_irrefl _
    have henter : (TreeCursor.new t : TreeCursor T S K).enter =
        some ⟨t, [⟨t, 0, Dimension.zero S⟩], Dimension.zero S, true, t.isEmpty⟩ := rfl
    rw [TreeCursor.seek, TreeCursor.reset_eq Stands.fresh, TreeCursor.seekInternal, TreeCursor.new, if_neg hge]
    change Option.map _ ((TreeCursor.new t : TreeCursor T S K).enter.bind _) = none
    exact congrArg (fun r => Option.map _ (Option.bind r _)) hloop

theorem keyed_suffix (hok : t.Ok) (hcap : t.height < STACK_CAPACITY) (hsorted : Sorted key t.flat)
    (hs : Stands t c (.at i)) : ∃ c' suffix, c.suffix = some (c', suffix) ∧ suffix.Ok ∧ suffix.flat = t.flat.drop i := by
  have ho : Ordered (S := S) t.flat fun _ : K => .gt := fun _ _ _ _ => ⟨fun _ => rfl, fun h => absurd h (by simp)⟩
  have hforward : (Place.at i).forward t.flat (fun _ : K => .gt) .right = some (i, t.flat.length) := by
    have hle : i ≤ t.flat.length := hs.behind_le
    have hlands : SeekLands t.flat (fun _ : K => .gt) .right i t.flat.length :=
      ⟨hle, le_refl _, fun _ => rfl, fun h => absurd h (lt_irrefl _)⟩
    rw [Place.forward, Place.index, bind_some, if_neg (by decide), hlands.eq_scan ho]
  obtain ⟨c', a', hseek, -, hout⟩ := TreeCursor.forward_spec (keyed_measures hsorted _ _) TreeCursor.gathers_slice hok hcap
    hs ho (a := ⟨SumTree.new, [], [], Summary.zero⟩) (.mk (.inl rfl) (Nat.zero_le _)) hforward
  rw [take_length] at hout
  exact ⟨c', a'.tree, by rw [TreeCursor.suffix, TreeCursor.slice, hseek]; rfl, hout.tree⟩

end

/-! ## Entries of a map -/

/-- `MapKey`, and `MapKeyRef`, which is the same by reference. -/
structure MapKey (K : Type) where
  key : Option K
  deriving DecidableEq

structure MapEntry (K V : Type) where
  key : K
  value : V
  deriving DecidableEq

namespace MapKey

variable {K : Type} [LinearOrder K]

/-- Nothing comes before every key. -/
def Le : Option K → Option K → Prop
  | none, _ => True
  | some _, none => False
  | some a, some b => a ≤ b

instance : DecidableRel (Le : Option K → Option K → Prop)
  | none, _ => isTrue trivial
  | some _, none => isFalse id
  | some a, some b => inferInstanceAs (Decidable (a ≤ b))

instance : LinearOrder (MapKey K) where
  le a b := Le a.key b.key
  le_refl := by
    rintro ⟨_ | a⟩
    · trivial
    · exact le_refl a
  le_trans := by
    rintro ⟨_ | a⟩ ⟨_ | b⟩ ⟨_ | c⟩ hab hbc
    all_goals first | trivial | exact hab.elim | exact hbc.elim | exact le_trans hab hbc
  le_antisymm := by
    rintro ⟨_ | a⟩ ⟨_ | b⟩ hab hba
    all_goals first | rfl | exact hab.elim | exact hba.elim | exact congrArg (fun k => MapKey.mk (some k)) (le_antisymm hab hba)
  le_total := by
    rintro ⟨_ | a⟩ ⟨_ | b⟩
    all_goals first | exact .inl trivial | exact .inr trivial | exact le_total a b
  toDecidableLE a b := inferInstanceAs (Decidable (Le a.key b.key))
  toDecidableEq := inferInstance

@[simp] theorem some_lt_some {a b : K} : (⟨some a⟩ : MapKey K) < ⟨some b⟩ ↔ a < b := by
  rw [lt_iff_le_not_ge, lt_iff_le_not_ge]
  exact Iff.rfl

end MapKey

namespace MapEntry

variable {K V : Type}

instance : Summary (MapKey K) := ⟨⟨none⟩, fun _ summary => summary⟩

instance : Item (MapEntry K V) (MapKey K) := ⟨fun entry => ⟨some entry.key⟩⟩

instance : KeyedItem (MapEntry K V) (MapKey K) := ⟨fun entry => ⟨some entry.key⟩⟩

instance : LawfulSummary (MapKey K) := ⟨fun _ _ _ => rfl, fun _ => rfl⟩

theorem sumOf_snoc (items : List (MapEntry K V)) (x : MapEntry K V) : (sumOf (items ++ [x]) : MapKey K) = KeyedItem.key x := by
  rw [sumOf_append _ (by simp)]
  rfl

instance [LinearOrder K] : LawfulKey (MapEntry K V) (MapKey K) (MapKey K) where
  zero_le _ := trivial
  add_sorted _ items x _ _ := sumOf_snoc items x

end MapEntry

end SpkEditor
