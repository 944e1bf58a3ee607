import SpkEditor.SumTree.CursorLook
import Mathlib.Data.List.Induction
import Mathlib.Data.List.TakeWhile

/-!
# Searching

A search goes from where the cursor stands to the next item whose summary the filter wants. It asks
the filter about nodes as well, and does not go down into one that is not wanted; what it leaves out
there it still adds to its position. A node that is wanted may hold no item that is: then the search
goes on behind it.

That a search goes over a part of the tree, and stops in it or passes it, is `Through`; the parts
are put together along the path, forward and backward.
-/

namespace SpkEditor

open SumTree List Option

variable {T S D : Type} [Summary S] [Item T S] [Dimension D S]

variable {cs ds ts : List (SumTree T S)}

/-! ## What is wanted -/

inductive SumTree.Within (t : SumTree T S) : SumTree T S → Prop where
  | refl : Within t t
  | child {h : Nat} {s : S} {ss : List S} {ts : List (SumTree T S)} {u : SumTree T S} :
      Within t (internal h s ss ts) → u ∈ ts → Within t u

/-- The filter wants every node that has an item it wants. -/
def Covers (filterNode : S → Bool) (t : SumTree T S) : Prop :=
  ∀ u, Within t u → ∀ x ∈ u.flat, filterNode (Item.summary x) = true → filterNode u.summary = true

def Unwanted (filterNode : S → Bool) (items : List T) : Prop :=
  ∀ x ∈ items, filterNode (Item.summary x) = false

/-- What a search does not go down into has nothing that is wanted, and is measured as its items are. -/
structure Skippable (D : Type) [Dimension D S] (filterNode : S → Bool) (t : SumTree T S) : Prop where
  unwanted : ∀ {u : SumTree T S}, Within t u → filterNode u.summary = false → Unwanted filterNode u.flat
  measured : ∀ {h : Nat} {u : SumTree T S}, Wf h u → filterNode u.summary = false → ∀ d : D,
    Dimension.addSummary d u.summary = after d u.flat

/-- The cursor stands at the first wanted item of `w`, which comes behind `pre`. -/
def StopsIn (filterNode : S → Bool) (t : SumTree T S) (pre w : List T) (c : TreeCursor T S D) : Prop :=
  ∃ xs y ys, w = xs ++ y :: ys ∧ Unwanted filterNode xs ∧ filterNode (Item.summary y) = true ∧
    Stands t c (.at (pre ++ xs).length)

/-- The cursor stands at the last wanted item of `w`. -/
def StopsBackIn (filterNode : S → Bool) (t : SumTree T S) (pre w : List T) (c : TreeCursor T S D) : Prop :=
  ∃ xs y ys, w = xs ++ y :: ys ∧ Unwanted filterNode ys ∧ filterNode (Item.summary y) = true ∧
    Stands t c (.at (pre ++ xs).length)

/-- Where a search forward ends that has `pre` behind it. -/
def SearchEnds (filterNode : S → Bool) (t : SumTree T S) (pre post : List T) (c : TreeCursor T S D) : Prop :=
  StopsIn filterNode t pre post c ∨ Unwanted filterNode post ∧ Stands t c (.at t.flat.length)

/-- Where a search backward ends that has `pre` before it. -/
def SearchBackEnds (filterNode : S → Bool) (t : SumTree T S) (pre : List T) (c : TreeCursor T S D) : Prop :=
  StopsBackIn filterNode t [] pre c ∨ Unwanted filterNode pre ∧ Stands t c .before

/-- How many items are before a cursor that is stepped backward. -/
def Place.behind (n : Nat) : Place → Nat
  | .fresh => n
  | .before => 0
  | .at i => i
  | .lost => n

section

variable {filterNode : S → Bool} {t u : SumTree T S} {rest : List (StackEntry T S D)} {h : Nat}
  {pre post w x : List T} {c : TreeCursor T S D}

omit [Summary S] in
theorem Unwanted.append (hw : Unwanted filterNode w) (hx : Unwanted filterNode x) : Unwanted filterNode (w ++ x) :=
  fun y hy => (List.mem_append.mp hy).elim (hw y) (hx y)

theorem StopsIn.left (hs : StopsIn filterNode t pre w c) (x : List T) : StopsIn filterNode t pre (w ++ x) c := by
  obtain ⟨xs, y, ys, rfl, hxs, hy, hst⟩ := hs
  exact ⟨xs, y, ys ++ x, by simp, hxs, hy, hst⟩

theorem StopsIn.right (hs : StopsIn filterNode t (pre ++ x) w c) (hx : Unwanted filterNode x) :
    StopsIn filterNode t pre (x ++ w) c := by
  obtain ⟨xs, y, ys, rfl, hxs, hy, hst⟩ := hs
  exact ⟨x ++ xs, y, ys, by simp, hx.append hxs, hy, by rwa [← append_assoc]⟩

theorem StopsBackIn.left (hs : StopsBackIn filterNode t pre w c) (hx : Unwanted filterNode x) :
    StopsBackIn filterNode t pre (w ++ x) c := by
  obtain ⟨xs, y, ys, rfl, hys, hy, hst⟩ := hs
  exact ⟨xs, y, ys ++ x, by simp, hys.append hx, hy, hst⟩

theorem StopsBackIn.right (hs : StopsBackIn filterNode t (pre ++ x) w c) :
    StopsBackIn filterNode t pre (x ++ w) c := by
  obtain ⟨xs, y, ys, rfl, hys, hy, hst⟩ := hs
  exact ⟨x ++ xs, y, ys, by simp, hys, hy, by rwa [← append_assoc]⟩

theorem SearchBackEnds.before (hs : SearchBackEnds filterNode t pre c) (hx : Unwanted filterNode x) :
    SearchBackEnds filterNode t (pre ++ x) c :=
  hs.imp (fun h => h.left hx) (fun ⟨h, hst⟩ => ⟨h.append hx, hst⟩)

theorem StopsBackIn.ends (hs : StopsBackIn filterNode t pre w c) : SearchBackEnds filterNode t (pre ++ w) c :=
  .inl hs.right

theorem SumTree.Path.within (hp : Path t rest h u pre post) : Within t u := by
  induction hp with
  | root _ => exact .refl
  | child _ ih => exact ih.child (by simp)

theorem Skippable.all : Skippable D (fun _ => true) t := ⟨fun _ h => (nomatch h), fun _ h => (nomatch h)⟩

theorem Covers.skippable [LawfulSummary S] [LawfulDimension D S] (hcov : Covers filterNode t) :
    Skippable D filterNode t where
  unwanted {u} hu hf y hy := by
    by_contra hne
    rw [hcov u hu y hy (Bool.eq_true_of_not_eq_false hne)] at hf
    exact nomatch hf
  measured hwf _ d := hwf.add_summary d

namespace Skippable

variable (hsk : Skippable D filterNode t) {ts : List (SumTree T S)}

include hsk

theorem unwanted_all (hts : ∀ v ∈ ts, Within t v ∧ filterNode v.summary = false) :
    Unwanted filterNode (flatAll ts) := by
  induction ts with
  | nil => exact fun y hy => absurd hy (by simp [flatAll])
  | cons v ts ih =>
    obtain ⟨hv, hf⟩ := hts v mem_cons_self
    exact (hsk.unwanted hv hf).append (ih fun v' hv' => hts v' (mem_cons_of_mem _ hv'))

theorem foldl_summaries (hts : ∀ v ∈ ts, Wf h v ∧ filterNode v.summary = false) (d : D) :
    (ts.map SumTree.summary).foldl Dimension.addSummary d = after d (flatAll ts) := by
  induction ts generalizing d with
  | nil =>
    rfl
  | cons v ts ih =>
    obtain ⟨hv, hf⟩ := hts v mem_cons_self
    rw [map_cons, foldl_cons, ih fun v' hv' => hts v' (mem_cons_of_mem _ hv'), hsk.measured hv hf,
      flatAll, after_append]

end Skippable

namespace TreeCursor

/-! ## Fuel -/

omit [Summary S] [Item T S] in
theorem nodes_pos (t : SumTree T S) : 0 < t.nodes := by
  cases t <;> simp [nodes]

omit [Summary S] [Item T S] in
theorem nodesAll_append (ts us : List (SumTree T S)) :
    nodes.nodesAll (ts ++ us) = nodes.nodesAll ts + nodes.nodesAll us := by
  induction ts with
  | nil => rw [nil_append, nodes.nodesAll, zero_add]
  | cons t ts ih => rw [cons_append, nodes.nodesAll, nodes.nodesAll, ih, add_assoc]

omit [Summary S] [Item T S] in
theorem nodes_le_nodesAll {u : SumTree T S} (h : u ∈ ts) : u.nodes ≤ nodes.nodesAll ts := by
  induction ts with
  | nil => simp at h
  | cons t ts ih =>
    rw [nodes.nodesAll]
    rcases List.mem_cons.1 h with rfl | h
    · omega
    · have := ih h
      omega

theorem nodes_le_of_path (hp : Path t rest h u pre post) : u.nodes ≤ t.nodes := by
  induction hp with
  | root _ => exact le_refl _
  | @child rest h s ls rs u pre post _ ih =>
    have hle := nodes_le_nodesAll (show u ∈ ls ++ u :: rs from mem_append_right ls mem_cons_self)
    rw [nodes] at ih
    omega

omit [Summary S] [Item T S] [Dimension D S] in
theorem pushEntry_eq {c : TreeCursor T S D} (hlen : c.stack.length < STACK_CAPACITY) (entry : StackEntry T S D) :
    c.pushEntry entry = some { c with stack := entry :: c.stack } := if_pos hlen

/-! ## Forward -/

omit [Summary S] [Item T S] in
theorem skip_all (l : List S) (index : Nat) (entryPosition position : D) :
    skip (fun _ => true) l index entryPosition position = (index, entryPosition, position) := by
  cases l <;> rfl

omit [Summary S] [Item T S] in
/-- What is skipped is all that is not wanted up to the first that is. -/
theorem skip_eq (l : List S) (index : Nat) (entryPosition position : D) :
    skip filterNode l index entryPosition position =
      (index + (l.takeWhile fun s => !filterNode s).length,
        (l.takeWhile fun s => !filterNode s).foldl Dimension.addSummary entryPosition,
        (l.takeWhile fun s => !filterNode s).foldl Dimension.addSummary position) := by
  induction l generalizing index entryPosition position with
  | nil => rfl
  | cons s l ih =>
    rw [skip, takeWhile_cons]
    cases hs : filterNode s with
    | true => rfl
    | false =>
      simp only [Bool.false_eq_true, if_false, ih, Bool.not_false, if_true, length_cons, foldl_cons]
      rw [add_assoc, add_comm 1]

variable (filterNode) in
theorem forward_leaf {is : List T} (hp : Path t rest 0 (leaf (sumOf is) is (is.map Item.summary)) pre post) {k i : Nat}
    {b : Bool} (hk : k ≤ is.length) (hi : if b then i = k else i + 1 = k) (q : D) :
    Through (forwardTurn filterNode) (StopsIn filterNode t (pre ++ is.take k) (is.drop k))
      (Unwanted filterNode (is.drop k)) 1
      (⟨t, ⟨leaf (sumOf is) is (is.map Item.summary), i, q⟩ :: rest, cum (pre ++ is.take i), true, false⟩, b)
      (⟨t, rest, cum (pre ++ is), true, false⟩, false) := by
  obtain ⟨xs, ys, hxs, hxs', hdrop⟩ : ∃ xs ys, (is.drop k).takeWhile (fun x => !filterNode (Item.summary x)) = xs ∧
      (∀ y ∈ ys.head?, filterNode (Item.summary y) = true) ∧ is.drop k = xs ++ ys :=
    ⟨_, (is.drop k).dropWhile (fun x => !filterNode (Item.summary x)), rfl, fun y hy => by
      have := head?_dropWhile_not (fun x => !filterNode (Item.summary x)) (is.drop k)
      rw [hy] at this
      simpa using this, (takeWhile_append_dropWhile).symm⟩
  have hun : Unwanted filterNode xs := fun x hx => by
    rw [← hxs] at hx
    simpa using mem_takeWhile_imp hx
  have hsum : ((is.map (Item.summary : T → S)).drop k).takeWhile (fun s => !filterNode s) = xs.map Item.summary := by
    rw [← map_drop, takeWhile_map, ← hxs]
    rfl
  have hpos : (after (cum (pre ++ is.take k)) xs : D) = cum (pre ++ is.take (k + xs.length)) := by
    have htake : is.take (k + xs.length) = is.take k ++ xs := by
      rw [take_add, hdrop, take_left]
    rw [htake, ← append_assoc, cum_append (pre ++ is.take k)]
  have hlen : k + xs.length + ys.length = is.length := by
    have := congrArg List.length hdrop
    rw [length_drop, length_append] at this
    omega
  -- the entry is at `k`, and the position there
  obtain ⟨q', hturn⟩ : ∃ q', forwardTurn filterNode (⟨t, ⟨leaf (sumOf is) is (is.map Item.summary), i, q⟩ :: rest,
      cum (pre ++ is.take i), true, false⟩, b) =
      some (if k + xs.length < is.length then
        .inr ⟨t, ⟨leaf (sumOf is) is (is.map Item.summary), k + xs.length, q'⟩ :: rest,
          cum (pre ++ is.take (k + xs.length)), true, false⟩
      else .inl (⟨t, rest, cum (pre ++ is.take (k + xs.length)), true, false⟩, false)) := by
    cases b with
    | true =>
      obtain rfl : i = k := hi
      simp only [forwardTurn, if_true, map_some, skip_eq, hsum, length_map, after_map, hpos]
      exact ⟨_, rfl⟩
    | false =>
      obtain rfl : i + 1 = k := hi
      obtain ⟨y, hy⟩ : ∃ y, is[i]? = some y := ⟨_, getElem?_eq_getElem (by omega)⟩
      simp only [forwardTurn, Bool.false_eq_true, if_false, getElem?_map, hy, map_some, skip_eq, hsum,
        length_map, after_map, ← cum_take_succ hy, hpos]
      exact ⟨_, rfl⟩
  rcases ys with _ | ⟨y, ys⟩
  · have hall : is.take (k + xs.length) = is := take_of_length_le (by simp at hlen; omega)
    rw [if_neg (by simp at hlen; omega), hall] at hturn
    refine .step hturn ?_
    rwa [hdrop, append_nil]
  · have hlt : k + xs.length < is.length := by simp at hlen; omega
    rw [if_pos hlt] at hturn
    refine .done hturn ⟨xs, y, ys, hdrop, hun, hxs' y rfl, ?_⟩
    have hs : Stands t _ (.at (pre.length + (k + xs.length))) :=
      .at (q := q') hp (k := k + xs.length) (by simpa only [flat] using hlt)
    have hidx : pre.length + (k + xs.length) = (pre ++ is.take k ++ xs).length := by
      simp only [length_append, length_take]
      omega
    rw [hidx] at hs
    exact hs

variable (filterNode) in
/-- A turn at a node, when the children before some of them are done: it goes down into one of these, or the
node is done. -/
theorem forwardTurn_internal {s : S} (hcs : cs = ds ++ ts) (hsk : Skippable D filterNode t)
    (hp : Path t rest (h + 1) (internal (h + 1) s (cs.map SumTree.summary) cs) pre post)
    (hcap : t.height < STACK_CAPACITY) {i : Nat} {q : D} {b : Bool} (hi : (if b then i else i + 1) = ds.length)
    (hq : b = true → q = cum (pre ++ flatAll ds)) :
    ∃ ls rs, ts = ls ++ rs ∧ (∀ v ∈ ls, filterNode v.summary = false) ∧
    forwardTurn filterNode (⟨t, ⟨internal (h + 1) s (cs.map SumTree.summary) cs, i, q⟩ :: rest,
        cum (pre ++ flatAll ds), true, false⟩, b) =
      some (.inl (match rs with
        | [] => (⟨t, rest, cum (pre ++ flatAll ds ++ flatAll ls), true, false⟩, false)
        | v :: _ => (⟨t, ⟨v, 0, cum (pre ++ flatAll ds ++ flatAll ls)⟩ ::
            ⟨internal (h + 1) s (cs.map SumTree.summary) cs, (ds ++ ls).length,
              cum (pre ++ flatAll ds ++ flatAll ls)⟩ :: rest,
            cum (pre ++ flatAll ds ++ flatAll ls), true, false⟩, true))) := by
  obtain ⟨_, heq, _, _, hwf⟩ := hp.wf.children
  obtain ⟨_, _, _, rfl⟩ := SumTree.internal.inj heq
  have hlen := hp.length_eq
  obtain ⟨ls, rs, hls, hts⟩ : ∃ ls rs, ts.takeWhile (fun v => !filterNode v.summary) = ls ∧ ts = ls ++ rs :=
    ⟨_, ts.dropWhile (fun v => !filterNode v.summary), rfl, List.takeWhile_append_dropWhile.symm⟩
  have hun : ∀ v ∈ ls, filterNode v.summary = false := fun v hv => by
    rw [← hls] at hv
    simpa using mem_takeWhile_imp hv
  refine ⟨ls, rs, hts, hun, ?_⟩
  have hdrop : (cs.map SumTree.summary).drop ds.length = ts.map SumTree.summary := by
    rw [← map_drop, hcs, drop_left]
  have hskip : (ts.map SumTree.summary).takeWhile (fun s => !filterNode s) = ls.map SumTree.summary := by
    rw [takeWhile_map, ← hls]
    rfl
  have hsum : (ls.map SumTree.summary).foldl Dimension.addSummary (cum (pre ++ flatAll ds) : D) =
      cum (pre ++ flatAll ds ++ flatAll ls) := by
    rw [hsk.foldl_summaries (fun v hv => ⟨hwf v (by rw [hcs, hts]; simp [hv]), hun v hv⟩), cum_append (pre ++ flatAll ds)]
  have hentry : (if b then (⟨internal (h + 1) s (cs.map SumTree.summary) cs, i, q⟩ : StackEntry T S D)
      else ⟨internal (h + 1) s (cs.map SumTree.summary) cs, i + 1, cum (pre ++ flatAll ds)⟩) =
      ⟨internal (h + 1) s (cs.map SumTree.summary) cs, ds.length, cum (pre ++ flatAll ds)⟩ := by
    cases b
    · rw [← hi]
      rfl
    · rw [← hi, hq rfl]
      rfl
  simp only [forwardTurn]
  rw [hentry]
  simp only [hdrop, skip_eq, hskip, hsum, length_map]
  have hget : cs[ds.length + ls.length]? = rs.head? := by
    rw [hcs, hts, ← append_assoc, getElem?_append_right (by simp)]
    simp [head?_eq_getElem?]
  rw [hget]
  rcases rs with _ | ⟨v, rs⟩
  · rfl
  · simp only [head?_cons, length_append]
    rw [pushEntry_eq (by simp only [length_cons]; omega)]
    rfl

section

variable (hsk : Skippable D filterNode t) (hcap : t.height < STACK_CAPACITY)
include hsk hcap

theorem forward_children (hsub : ∀ {v : SumTree T S} {rest : List (StackEntry T S D)} {pre post : List T}, Path t rest h v pre post →
      Through (forwardTurn filterNode) (StopsIn filterNode t pre v.flat) (Unwanted filterNode v.flat) (2 * v.nodes - 1)
        (⟨t, ⟨v, 0, cum pre⟩ :: rest, cum pre, true, false⟩, true) (⟨t, rest, cum (pre ++ v.flat), true, false⟩, false))
    {s : S} (hp : Path t rest (h + 1) (internal (h + 1) s (cs.map SumTree.summary) cs) pre post) (hcs : cs = ds ++ ts) {i : Nat} {q : D} {b : Bool}
    (hi : (if b then i else i + 1) = ds.length) (hq : b = true → q = cum (pre ++ flatAll ds)) :
    Through (forwardTurn filterNode) (StopsIn filterNode t (pre ++ flatAll ds) (flatAll ts))
      (Unwanted filterNode (flatAll ts)) (2 * nodes.nodesAll ts + 1)
      (⟨t, ⟨internal (h + 1) s (cs.map SumTree.summary) cs, i, q⟩ :: rest, cum (pre ++ flatAll ds), true, false⟩, b)
      (⟨t, rest, cum (pre ++ flatAll cs), true, false⟩, false) := by
  induction hn : ts.length using Nat.strong_induction_on generalizing ds ts i q b with
  | _ n ih =>
    obtain ⟨ls, rs, hts, hun, hturn⟩ := forwardTurn_internal filterNode hcs hsk hp hcap hi hq
    have hls : Unwanted filterNode (flatAll ls) :=
      hsk.unwanted_all fun v hv => ⟨hp.within.child (by rw [hcs, hts]; simp [hv]), hun v hv⟩
    rcases rs with _ | ⟨v, rs⟩
    · -- the node is done
      obtain rfl : ts = ls := by simpa using hts
      rw [append_assoc, ← flatAll_append, ← hcs] at hturn
      exact (Through.step hturn hls).mono (by omega)
    · have hp' := hp.step (ds ++ ls) v rs (by rw [hcs, hts, append_assoc]; rfl)
      rw [flatAll_append, ← append_assoc] at hp'
      have hpre : pre ++ flatAll (ds ++ ls ++ [v]) = pre ++ flatAll ds ++ flatAll ls ++ v.flat := by
        simp only [flatAll_append, flatAll_singleton, append_assoc]
      have hrest := ih rs.length (by rw [← hn, hts, length_append, length_cons]; omega)
        (show cs = ds ++ ls ++ [v] ++ rs by rw [hcs, hts]; simp) (i := (ds ++ ls).length)
        (q := cum (pre ++ flatAll ds ++ flatAll ls)) (b := false) (by simp [add_assoc]) (by simp) rfl
      rw [hpre] at hrest
      have hflat : flatAll ts = flatAll ls ++ (v.flat ++ flatAll rs) := by rw [hts, flatAll_append, flatAll]
      rw [hflat]
      refine (((hsub hp').trans (fun _ => hrest) (fun r hr => ?_) (fun hv r hr => ?_) fun hv hrs => ?_).turn hturn).mono ?_
      · exact (hr.left _).right hls
      · exact (hr.right hv).right hls
      · exact hls.append (hv.append hrs)
      · have := nodes_pos v
        rw [hts, nodesAll_append, nodes.nodesAll]
        omega

theorem forward_through (hp : Path t rest h u pre post) :
    Through (forwardTurn filterNode) (StopsIn filterNode t pre u.flat) (Unwanted filterNode u.flat) (2 * u.nodes - 1)
      (⟨t, ⟨u, 0, cum pre⟩ :: rest, cum pre, true, false⟩, true)
      (⟨t, rest, cum (pre ++ u.flat), true, false⟩, false) := by
  induction h generalizing u rest pre post with
  | zero =>
    obtain ⟨is, rfl, hne, _⟩ := hp.wf.items
    have hs := forward_leaf filterNode (b := true) hp (Nat.zero_le _) (i := 0) rfl (cum pre)
    simp only [take_zero, append_nil, drop_zero] at hs
    exact hs.mono (by rw [nodes]; omega)
  | succ h ih =>
    obtain ⟨ts, rfl, _, _, _⟩ := hp.wf.children
    have hs := forward_children hsk hcap (fun hp => ih hp) hp (nil_append ts).symm (i := 0) (q := cum pre)
      (b := true) rfl (by simp [flatAll])
    simp only [flatAll, append_nil] at hs
    exact hs.mono (by rw [nodes]; omega)

theorem forward_above (hp : Path t rest h u pre post) :
    ∃ c, loop (forwardTurn filterNode) (2 * (t.nodes - u.nodes) + 1) (⟨t, rest, cum (pre ++ u.flat), true, false⟩, false) =
      some c ∧ SearchEnds filterNode t (pre ++ u.flat) post c := by
  induction hp with
  | root hwf => exact ⟨_, loop_done rfl _, .inr ⟨fun y hy => absurd hy (by simp), .end⟩⟩
  | @child rest h s ls rs u pre post hp ih =>
    have hle := nodes_le_of_path hp
    have hs := forward_children hsk hcap (fun hp => forward_through hsk hcap hp) hp
      (show ls ++ u :: rs = (ls ++ [u]) ++ rs by simp) (i := ls.length) (q := cum (pre ++ flatAll ls)) (b := false)
      (by simp) (by simp)
    simp only [flatAll_append _ [u], flatAll_singleton, ← append_assoc] at hs
    have hback : Unwanted filterNode (flatAll rs) → ∀ r : TreeCursor T S D,
        SearchEnds filterNode t (pre ++ flatAll (ls ++ u :: rs)) post r →
        SearchEnds filterNode t (pre ++ flatAll ls ++ u.flat) (flatAll rs ++ post) r := by
      intro hun r hr
      have hpre : pre ++ flatAll (ls ++ u :: rs) = pre ++ flatAll ls ++ u.flat ++ flatAll rs := by
        simp only [flatAll_append, flatAll, append_assoc]
      rw [hpre] at hr
      exact hr.imp (fun h => h.right hun) (fun h => ⟨hun.append h.1, h.2⟩)
    obtain ⟨c, hloop, hends⟩ := hs.finish (fun _ => ih) (fun r hr => .inl (hr.left post)) hback
    have hnodes : (internal (h + 1) s ((ls ++ u :: rs).map SumTree.summary) (ls ++ u :: rs)).nodes =
        nodes.nodesAll ls + (u.nodes + nodes.nodesAll rs) + 1 := by
      rw [nodes, nodesAll_append, nodes.nodesAll]
    exact ⟨c, loop_mono hloop (by omega), hends⟩

end

theorem searchForward_spec (hok : t.Ok) (hcap : t.height < STACK_CAPACITY) (hsk : Skippable D filterNode t) {p : Place}
    (hs : Stands t c p) {i : Nat} (hi : p.next t.flat.length = .at i) :
    ∃ c', c.searchForward filterNode = some c' ∧ SearchEnds filterNode t (t.flat.take i) (t.flat.drop i) c' := by
  -- from before the first item
  have hfirst : ∀ {h : Nat} (k : Bool), Wf h t →
      ∃ c', (⟨t, [], Dimension.zero S, k, false⟩ : TreeCursor T S D).searchForward filterNode = some c' ∧
        SearchEnds filterNode t [] t.flat c' := by
    intro h k hwf
    have hthrough := forward_through (D := D) hsk hcap (.root hwf)
    have hback : Unwanted filterNode t.flat → ∀ r : TreeCursor T S D, SearchEnds filterNode t ([] ++ t.flat) [] r →
        SearchEnds filterNode t [] t.flat r := by
      rintro hun r (⟨xs, y, ys, heq, -⟩ | ⟨-, hst⟩)
      · exact absurd heq (by simp)
      · exact .inr ⟨hun, hst⟩
    obtain ⟨c', hloop, hends⟩ :=
      hthrough.finish (fun _ => forward_above hsk hcap (.root hwf)) (fun r hr => .inl hr) hback
    exact ⟨c', loop_mono hloop (show _ ≤ 2 * t.nodes + 2 by omega), hends⟩
  cases hs with
  | fresh =>
    obtain rfl := Place.at.inj hi
    rcases hok with rfl | ⟨h, hwf⟩
    · exact ⟨_, rfl, .inr ⟨fun y hy => absurd hy (by simp [SumTree.new, flat]), .end⟩⟩
    · rw [new, hwf.not_isEmpty]
      exact hfirst false hwf
  | before hne =>
    obtain rfl := Place.at.inj hi
    rcases hok with rfl | ⟨h, hwf⟩
    · simp [SumTree.new, SumTree.isEmpty] at hne
    · exact hfirst true hwf
  | @«at» u rest pre post k q hp hk =>
    obtain ⟨is, rfl, hne, _⟩ := hp.wf.items
    simp only [flat] at hk
    have hlen := congrArg List.length hp.flat_eq
    simp only [flat, length_append] at hlen
    obtain rfl : pre.length + (k + 1) = i := by
      have := Place.at.inj hi
      omega
    have htake : t.flat.take (pre.length + (k + 1)) = pre ++ is.take (k + 1) := take_path hp hk
    have hdrop : t.flat.drop (pre.length + (k + 1)) = is.drop (k + 1) ++ post := by
      rw [hp.flat_eq, flat, append_assoc, drop_length_add_append, drop_append_of_le_length hk]
    rw [htake, hdrop]
    have hleaf := forward_leaf filterNode (b := false) hp hk (i := k) rfl q
    have hup := forward_above hsk hcap hp
    have hback : Unwanted filterNode (is.drop (k + 1)) → ∀ r : TreeCursor T S D,
        SearchEnds filterNode t (pre ++ is) post r →
        SearchEnds filterNode t (pre ++ is.take (k + 1)) (is.drop (k + 1) ++ post) r := by
      intro hun r hr
      have hpre : pre ++ is = pre ++ is.take (k + 1) ++ is.drop (k + 1) := by
        rw [append_assoc, take_append_drop]
      rw [hpre] at hr
      exact hr.imp (fun h => h.right hun) (fun h => ⟨hun.append h.1, h.2⟩)
    obtain ⟨c', hloop, hends⟩ := hleaf.finish (fun _ => hup) (fun r hr => .inl (hr.left post)) hback
    exact ⟨c', loop_mono hloop (show _ ≤ 2 * t.nodes + 2 by omega), hends⟩
  | «end» =>
    obtain rfl : t.flat.length = i := by
      have := Place.at.inj hi
      omega
    refine ⟨_, rfl, .inr ⟨fun y hy => absurd hy ?_, .end⟩⟩
    rw [drop_length]
    exact not_mem_nil
  | lost => exact absurd hi (by simp [Place.next])

/-! ## Backward -/

variable [LawfulSummary S] [LawfulDimension D S]

variable (filterNode) in
omit [LawfulSummary S] [LawfulDimension D S] in
theorem backwardTurn_leaf {is : List T} (hp : Path t rest 0 (leaf (sumOf is) is (is.map Item.summary)) pre post) {k : Nat}
    {y : T} (hy : is[k]? = some y) (b : Bool) (q p : D) :
    backwardTurn filterNode (⟨t, ⟨leaf (sumOf is) is (is.map Item.summary), if b then k else k + 1, q⟩ :: rest, p,
        true, false⟩, b) =
      some (if filterNode (Item.summary y) then
        .inr ⟨t, ⟨leaf (sumOf is) is (is.map Item.summary), k, cum (pre ++ is.take k)⟩ :: rest, cum (pre ++ is.take k),
          true, false⟩
      else
        .inl (⟨t, ⟨leaf (sumOf is) is (is.map Item.summary), k, cum (pre ++ is.take k)⟩ :: rest, cum (pre ++ is.take k),
          true, false⟩, false)) := by
  have hbase := hp.base_eq
  have hsum : ((List.map Item.summary is).take k).foldl Dimension.addSummary (cum pre : D) = cum (pre ++ is.take k) := by
    rw [← map_take, after_map, cum_append]
  have hk : (List.map (Item.summary : T → S) is)[k]? = some (Item.summary y) := by rw [getElem?_map, hy]; rfl
  cases b <;> cases hf : filterNode (Item.summary y) <;> simp [backwardTurn, childSummaries, hbase, hk, hsum, hf]

omit [LawfulSummary S] [LawfulDimension D S] in
variable (filterNode) in
theorem backward_items {is : List T} (hp : Path t rest 0 (leaf (sumOf is) is (is.map Item.summary)) pre post) (p : D)
    {k : Nat} (hk : k ≤ is.length) {b : Bool} (hb : b = true → k ≠ 0) (q : D) :
    Through (backwardTurn filterNode) (StopsBackIn filterNode t pre (is.take k)) (Unwanted filterNode (is.take k))
      (k + 1)
      (⟨t, ⟨leaf (sumOf is) is (is.map Item.summary), if b then k - 1 else k, q⟩ :: rest, p, true, false⟩, b)
      (⟨t, rest, cum pre, true, false⟩, false) := by
  induction k generalizing b p q with
  | zero =>
    obtain rfl : b = false := by
      cases b with
      | false => rfl
      | true => exact absurd rfl (hb rfl)
    refine .step ?_ fun y hy => absurd hy (by simp)
    simp [backwardTurn, hp.base_eq]
  | succ k ih =>
    obtain ⟨y, hy⟩ : ∃ y, is[k]? = some y := ⟨_, getElem?_eq_getElem (by omega)⟩
    have hturn := backwardTurn_leaf filterNode hp hy b q p
    have htake : is.take (k + 1) = is.take k ++ [y] := by rw [take_add_one, hy]; rfl
    have hidx : (if b then k + 1 - 1 else k + 1) = if b then k else k + 1 := by cases b <;> rfl
    rw [hidx, htake]
    cases hf : filterNode (Item.summary y) with
    | true =>
      rw [if_pos hf] at hturn
      refine Through.mono (.done hturn ⟨is.take k, y, [], rfl, fun z hz => absurd hz (by simp), hf, ?_⟩) (by omega)
      have hs : Stands t _ (.at (pre.length + k)) :=
        .at (q := cum (pre ++ is.take k)) hp (k := k) (by simp only [flat]; omega)
      rw [length_append, length_take, min_eq_left (by omega)]
      exact hs
    | false =>
      rw [hf, if_neg Bool.false_ne_true] at hturn
      have hy' : Unwanted filterNode [y] := fun z hz => by rw [List.mem_singleton.mp hz, hf]
      exact ((ih (cum (pre ++ is.take k)) (by omega) (b := false) (fun h => absurd h Bool.false_ne_true)
        (cum (pre ++ is.take k))).imp (fun r hr => hr.left hy') (fun hun => hun.append hy')).turn hturn

variable (filterNode) in
/-- The entry of a node is set to the child it is about to go to, and this one is entered from the back if it is
wanted. -/
theorem backwardTurn_internal {s : S} {ls rs : List (SumTree T S)} {v : SumTree T S}
    (hp : Path t rest (h + 1) (internal (h + 1) s ((ls ++ v :: rs).map SumTree.summary) (ls ++ v :: rs)) pre post)
    (hcap : t.height < STACK_CAPACITY) (b : Bool) (q p : D) :
    backwardTurn filterNode (⟨t, ⟨internal (h + 1) s ((ls ++ v :: rs).map SumTree.summary) (ls ++ v :: rs),
        if b then ls.length else ls.length + 1, q⟩ :: rest, p, true, false⟩, b) =
      some (.inl (if filterNode v.summary then
        (⟨t, ⟨v, v.childSummaries.length - 1, Dimension.zero S⟩ ::
          ⟨internal (h + 1) s ((ls ++ v :: rs).map SumTree.summary) (ls ++ v :: rs), ls.length,
            cum (pre ++ flatAll ls)⟩ :: rest, cum (pre ++ flatAll ls), true, false⟩, true)
      else
        (⟨t, ⟨internal (h + 1) s ((ls ++ v :: rs).map SumTree.summary) (ls ++ v :: rs), ls.length,
            cum (pre ++ flatAll ls)⟩ :: rest, cum (pre ++ flatAll ls), true, false⟩, false))) := by
  have hbase := hp.base_eq
  have hlen := hp.length_eq
  obtain ⟨_, heq, _, _, hwf⟩ := hp.wf.children
  obtain ⟨_, _, _, rfl⟩ := SumTree.internal.inj heq
  have hsum : (((ls ++ v :: rs).map SumTree.summary).take ls.length).foldl Dimension.addSummary (cum pre : D) =
      cum (pre ++ flatAll ls) := by
    rw [← map_take, take_left, Wf.foldl_summaries (fun w hw => hwf w (by simp [hw])), cum_append]
  have hv : ((ls ++ v :: rs).map SumTree.summary)[ls.length]? = some v.summary := by simp
  have hv' : (ls ++ v :: rs)[ls.length]? = some v := by simp
  have hne : v.childSummaries.length ≠ 0 := by
    have := hwf v (by simp)
    cases this <;> simpa [childSummaries] using ‹_ ≠ []›
  have hroom : rest.length + 1 < STACK_CAPACITY := by omega
  clear hp heq hwf
  generalize ls ++ v :: rs = cs at *
  have hcs : (internal (h + 1) s (cs.map SumTree.summary) cs).childSummaries = cs.map SumTree.summary := rfl
  cases b <;> cases hf : filterNode v.summary
  · simp only [backwardTurn, Bool.false_eq_true, if_false, not_false_eq_true, true_and, Nat.succ_ne_zero,
      Nat.add_sub_cancel, hcs, hv, hbase, hsum, bind_some, hf]
  · simp only [backwardTurn, Bool.false_eq_true, if_false, not_false_eq_true, true_and, Nat.succ_ne_zero,
      Nat.add_sub_cancel, hcs, hv, hbase, hsum, bind_some, if_true, hv', if_neg hne, hf]
    rw [pushEntry_eq (by exact hroom)]
    rfl
  · simp only [backwardTurn, Bool.false_eq_true, not_true_eq_false, false_and, if_true, if_false, hcs, hv, hbase, hsum,
      bind_some, hf]
  · simp only [backwardTurn, not_true_eq_false, false_and, if_true, if_false, hcs, hv, hbase, hsum, bind_some,
      hv', if_neg hne, hf]
    rw [pushEntry_eq (by exact hroom)]
    rfl

section

variable (hsk : Skippable D filterNode t) (hcap : t.height < STACK_CAPACITY)
include hsk hcap

theorem backward_children (hsub : ∀ {v : SumTree T S} {rest : List (StackEntry T S D)} {pre post : List T}, Path t rest h v pre post → ∀ p : D,
      Through (backwardTurn filterNode) (StopsBackIn filterNode t pre v.flat) (Unwanted filterNode v.flat)
        (2 * v.nodes - 1) (⟨t, ⟨v, v.childSummaries.length - 1, Dimension.zero S⟩ :: rest, p, true, false⟩, true)
        (⟨t, rest, cum pre, true, false⟩, false))
    {s : S} (hp : Path t rest (h + 1) (internal (h + 1) s (cs.map SumTree.summary) cs) pre post)
    {us : List (SumTree T S)} (hcs : cs = ds ++ us) {b : Bool} (hb : b = true → ds ≠ []) (q p : D) :
    Through (backwardTurn filterNode) (StopsBackIn filterNode t pre (flatAll ds)) (Unwanted filterNode (flatAll ds))
      (2 * nodes.nodesAll ds + 1)
      (⟨t, ⟨internal (h + 1) s (cs.map SumTree.summary) cs, if b then ds.length - 1 else ds.length, q⟩ :: rest, p, true,
        false⟩, b)
      (⟨t, rest, cum pre, true, false⟩, false) := by
  induction ds using List.reverseRecOn generalizing us b q p with
  | nil =>
    obtain rfl : b = false := by
      cases b with
      | false => rfl
      | true => exact absurd rfl (hb rfl)
    refine .step ?_ fun y hy => absurd hy (by simp [flatAll])
    simp [backwardTurn, hp.base_eq]
  | append_singleton ds v ih =>
    obtain rfl : cs = ds ++ v :: us := by rw [hcs]; simp
    have hturn := backwardTurn_internal filterNode hp hcap b q p
    have hidx : (if b then (ds ++ [v]).length - 1 else (ds ++ [v]).length) = if b then ds.length else ds.length + 1 := by
      cases b <;> simp
    have hrest := ih (show ds ++ v :: us = ds ++ (v :: us) from rfl) (b := false)
      (fun h => absurd h Bool.false_ne_true) (cum (pre ++ flatAll ds)) (cum (pre ++ flatAll ds))
    have hpos := nodes_pos v
    rw [hidx, flatAll_append, flatAll_singleton, nodesAll_append, nodes.nodesAll, nodes.nodesAll]
    cases hf : filterNode v.summary with
    | true =>
      rw [if_pos hf] at hturn
      have hdown := hsub (hp.step ds v us rfl) (cum (pre ++ flatAll ds))
      refine ((hdown.trans (fun _ => hrest) (fun r hr => hr.right) (fun hv r hr => hr.left hv)
        (fun hv hds => hds.append hv)).turn hturn).mono ?_
      omega
    | false =>
      rw [hf, if_neg Bool.false_ne_true] at hturn
      have hv := hsk.unwanted (hp.within.child (by simp)) hf
      exact ((hrest.imp (fun r hr => hr.left hv) (fun hun => hun.append hv)).turn hturn).mono (by omega)

/-- Down into a subtree from its end; the root is entered a step behind its last child. -/
theorem backward_through (hp : Path t rest h u pre post) (b : Bool) (q p : D) :
    Through (backwardTurn filterNode) (StopsBackIn filterNode t pre u.flat) (Unwanted filterNode u.flat)
      (2 * u.nodes - 1)
      (⟨t, ⟨u, if b then u.childSummaries.length - 1 else u.childSummaries.length, q⟩ :: rest, p, true, false⟩, b)
      (⟨t, rest, cum pre, true, false⟩, false) := by
  induction h generalizing u rest pre post b q p with
  | zero =>
    obtain ⟨is, rfl, hne, _⟩ := hp.wf.items
    have hs := backward_items filterNode hp p (le_refl _) (b := b) (fun _ => by simpa using hne) q
    rw [take_length] at hs
    have hlen : (leaf (sumOf is : S) is (is.map Item.summary)).childSummaries.length = is.length := by
      simp [childSummaries]
    simp only [flat, hlen]
    exact hs.mono (by rw [nodes]; omega)
  | succ h ih =>
    obtain ⟨ts, rfl, hne, _, _⟩ := hp.wf.children
    have hs := backward_children hsk hcap (fun hp p => ih hp true (Dimension.zero S) p) hp (append_nil ts).symm
      (b := b) (fun _ => hne) q p
    have hlen : (internal (h + 1) (sumOf (flatAll ts) : S) (ts.map SumTree.summary) ts).childSummaries.length =
        ts.length := by simp [childSummaries]
    simp only [flat, hlen]
    exact hs.mono (by rw [nodes]; omega)

theorem backward_above (hp : Path t rest h u pre post) :
    ∃ c, loop (backwardTurn filterNode) (2 * (t.nodes - u.nodes) + 1) (⟨t, rest, cum pre, true, false⟩, false) = some c ∧
      SearchBackEnds filterNode t pre c := by
  induction hp with
  | root hwf => exact ⟨_, loop_done rfl _, .inr ⟨fun y hy => absurd hy (by simp), .before hwf.not_isEmpty⟩⟩
  | @child rest h s ls rs u pre post hp ih =>
    have hle := nodes_le_of_path hp
    have hs := backward_children hsk hcap (fun hp p => backward_through hsk hcap hp true _ p) hp rfl (b := false)
      (fun h => absurd h Bool.false_ne_true) (cum (pre ++ flatAll ls)) (cum (pre ++ flatAll ls))
    obtain ⟨c, hloop, hends⟩ := hs.finish (fun _ => ih) (fun r hr => hr.ends) fun hun r hr => hr.before hun
    have hnodes : (internal (h + 1) s ((ls ++ u :: rs).map SumTree.summary) (ls ++ u :: rs)).nodes =
        nodes.nodesAll ls + (u.nodes + nodes.nodesAll rs) + 1 := by
      rw [nodes, nodesAll_append, nodes.nodesAll]
    exact ⟨c, loop_mono hloop (by omega), hends⟩

end

section

variable (hwf : Wf h t) (hcap : t.height < STACK_CAPACITY) (hsk : Skippable D filterNode t)
include hwf hcap hsk

theorem searchBackward_last {k e : Bool} (hke : k = false ∨ e = true) (p : D) :
    ∃ c', (⟨t, [], p, k, e⟩ : TreeCursor T S D).searchBackward filterNode = some c' ∧
      SearchBackEnds filterNode t t.flat c' := by
  have hs := backward_through hsk hcap (.root hwf) false (Dimension.addSummary (Dimension.zero S) t.summary)
    (Dimension.zero S : D)
  obtain ⟨c', hloop, hends⟩ :=
    hs.finish (fun _ => backward_above hsk hcap (.root hwf)) (fun r hr => hr.ends) fun hun r hr => hr.before hun
  refine ⟨c', ?_, hends⟩
  have hstart : (⟨t, [], p, k, e⟩ : TreeCursor T S D).searchBackward filterNode =
      loop (backwardTurn filterNode) (2 * t.nodes + 2)
        (⟨t, [⟨t, t.childSummaries.length, Dimension.addSummary (Dimension.zero S) t.summary⟩], Dimension.zero S, true,
          false⟩, false) := by
    rcases hke with rfl | rfl
    · simp [searchBackward, hwf.not_isEmpty, pushEntry, STACK_CAPACITY, fuel]
    · cases k <;> simp [searchBackward, hwf.not_isEmpty, pushEntry, STACK_CAPACITY, fuel]
  rw [hstart]
  exact loop_mono hloop (by omega)

/-- **A search backward.** On a tree without items there is nowhere to go. -/
theorem searchBackward_spec {p : Place}
    (hs : Stands t c p) : ∃ c', c.searchBackward filterNode = some c' ∧
      SearchBackEnds filterNode t (t.flat.take (p.behind t.flat.length)) c' := by
  have hall : t.flat.take t.flat.length = t.flat := take_length
  cases hs with
  | fresh =>
    rw [Place.behind, hall]
    exact searchBackward_last hwf hcap hsk (.inl rfl) _
  | before hne => exact ⟨_, rfl, .inr ⟨fun y hy => absurd hy (by simp [Place.behind]), .before hne⟩⟩
  | @«at» u rest pre post k q hp hk =>
    obtain ⟨is, rfl, hne, _⟩ := hp.wf.items
    simp only [flat] at hk
    have hitems := backward_items filterNode hp (cum (pre ++ is.take k)) (le_of_lt hk) (b := false)
      (fun h => absurd h Bool.false_ne_true) q
    obtain ⟨c', hloop, hends⟩ :=
      hitems.finish (fun _ => backward_above hsk hcap hp) (fun r hr => hr.ends) fun hun r hr => hr.before hun
    have hle := nodes_le_of_path hp
    rw [nodes] at hle hloop
    rw [Place.behind, take_path hp (le_of_lt hk)]
    exact ⟨c', loop_mono hloop (show _ ≤ 2 * t.nodes + 2 by omega), hends⟩
  | «end» =>
    rw [Place.behind, hall]
    exact searchBackward_last hwf hcap hsk (.inr rfl) _
  | lost =>
    rw [Place.behind, hall]
    exact searchBackward_last hwf hcap hsk (.inr rfl) _

end

end TreeCursor

end

end SpkEditor
