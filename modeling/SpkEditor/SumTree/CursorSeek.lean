import SpkEditor.SumTree.CursorStep

/-!
# Seeking

A seek goes past whole subtrees as long as their ends are before the target. It is enough that
it measures right what it passes (`Measures`): where the summary of a subtree does not tell how
far it reaches, the seek goes down, item by item, and comes up again behind the subtree if the
target was not in there (`SeeksThrough`). Where it stops is described without assuming that
targets are compared in order (`SeekLands`); where they are, there is only one such place
(`SeekLands.unique`).
-/

namespace SpkEditor

open SumTree List Option

variable {T S D : Type} [Summary S] [Item T S] [Dimension D S]

/-- What an aggregate has gathered between leaves, and within one. -/
structure Gathers {A : Type} (agg : SeekAggregate T S A) (out : A → List T → Prop)
    (inLeaf : A → List T → List T → Prop) : Prop where
  beginLeaf : ∀ {a : A} {p : List T}, out a p → inLeaf (agg.beginLeaf a) p []
  pushItem : ∀ {a : A} {p q : List T} (x : T), inLeaf a p q → q.length < 2 * TREE_BASE →
    ∃ a', agg.pushItem a x (Item.summary x) = some a' ∧ inLeaf a' p (q ++ [x])
  endLeaf : ∀ {a : A} {p q : List T}, inLeaf a p q → ∃ a', agg.endLeaf a = some a' ∧ out a' (p ++ q)
  pushTree : ∀ {a : A} {p : List T} {h : Nat} {u : SumTree T S}, out a p → Wf h u →
    ∃ a', agg.pushTree a u u.summary = some a' ∧ out a' (p ++ u.flat)

/-- From one index to another: what was passed last ends before the target, and what comes next does not. -/
structure SeekLands (l : List T) (target : D → Ordering) (bias : Bias) (i j : Nat) : Prop where
  le : i ≤ j
  le_length : j ≤ l.length
  passed : i < j → passes (target (cum (l.take j))) bias = true
  stopped : j < l.length → passes (target (cum (l.take (j + 1)))) bias = false

/-- The position that says whether the target was met exactly. -/
def met (l : List T) (bias : Bias) (j : Nat) : D := if bias = .left then cum (l.take (j + 1)) else cum (l.take j)

/-- A subtree that a seek goes past is measured as its items are, one by one. -/
def Measures (t : SumTree T S) (target : D → Ordering) (bias : Bias) : Prop :=
  ∀ (h : Nat) (u : SumTree T S) (pre post : List T), Wf h u → t.flat = pre ++ u.flat ++ post →
    passes (target (Dimension.addSummary (cum pre) u.summary)) bias = true →
    Dimension.addSummary (cum pre) u.summary = (cum (pre ++ u.flat) : D)

theorem measures_of_lawful [LawfulSummary S] [LawfulDimension D S] (t : SumTree T S) (target : D → Ordering) (bias : Bias) :
    Measures t target bias := by
  intro h u pre post hwf _ _
  rw [hwf.add_summary, cum_append]

namespace TreeCursor

variable {A : Type} {agg : SeekAggregate T S A} {out : A → List T → Prop} {inLeaf : A → List T → List T → Prop}
variable (target : D → Ordering) (bias : Bias)
variable {t u : SumTree T S} {rest : List (StackEntry T S D)} {h : Nat} {pre post : List T}

theorem seekChildren_spec (hm : Measures t target bias) (hg : Gathers agg out inLeaf) {ts : List (SumTree T S)}
    (hwf : ∀ v ∈ ts, Wf h v) (index : Nat) {pre post : List T} (hflat : t.flat = pre ++ flatAll ts ++ post) {a : A} {p : List T}
    (ha : out a p) : ∃ ls rs a', ts = ls ++ rs ∧
    seekChildren agg target bias (ts.zip (ts.map SumTree.summary)) index (cum pre) (cum pre) a =
      some (index + ls.length, cum (pre ++ flatAll ls), cum (pre ++ flatAll ls), a', rs.head?) ∧
    out a' (p ++ flatAll ls) ∧ (ls ≠ [] → passes (target (cum (pre ++ flatAll ls))) bias = true) := by
  induction ts generalizing index pre a p with
  | nil =>
    refine ⟨[], [], a, rfl, ?_, ?_, by simp⟩
    · simp [seekChildren, flatAll]
    · simpa [flatAll] using ha
  | cons v ts ih =>
    have hv := hwf v mem_cons_self
    rw [map_cons, zip_cons_cons]
    simp only [flatAll, ← append_assoc] at hflat
    by_cases hpass : passes (target (Dimension.addSummary (cum pre) v.summary)) bias = true
    · have hend := hm h v pre (flatAll ts ++ post) hv (by rw [hflat, append_assoc (pre ++ v.flat)]) hpass
      rw [hend] at hpass
      obtain ⟨a₁, ha₁, hout₁⟩ := hg.pushTree ha hv
      obtain ⟨ls, rs, a', rfl, heq, hout, hpassed⟩ :=
        ih (fun w hw => hwf w (mem_cons_of_mem _ hw)) (index + 1) hflat hout₁
      refine ⟨v :: ls, rs, a', rfl, ?_, ?_, ?_⟩
      · rw [seekChildren, hend, if_pos hpass, ha₁, bind_some, heq, flatAll, append_assoc, length_cons]
        congr 2
        omega
      · rwa [flatAll, ← append_assoc]
      · intro _
        rcases ls with _ | ⟨w, ls⟩
        · simpa [flatAll] using hpass
        · rw [flatAll, ← append_assoc]
          exact hpassed (by simp)
    · refine ⟨[], v :: ts, a, rfl, ?_, by simpa [flatAll] using ha, by simp⟩
      rw [seekChildren, if_neg hpass]
      simp [flatAll]

theorem seekItems_spec (hg : Gathers agg out inLeaf) (is : List T) (index : Nat) (pre : List T) {a : A} {p q : List T}
    (ha : inLeaf a p q) (hlen : q.length + is.length ≤ 2 * TREE_BASE) : ∃ xs ys a', is = xs ++ ys ∧
    seekItems agg target bias (is.zip (is.map Item.summary)) index (cum pre) a =
      some (index + xs.length, cum (pre ++ xs), a', !ys.isEmpty) ∧
    inLeaf a' p (q ++ xs) ∧ (xs ≠ [] → passes (target (cum (pre ++ xs))) bias = true) ∧
    ∀ y ∈ ys.head?, passes (target (cum (pre ++ xs ++ [y]))) bias = false := by
  induction is generalizing index pre a q with
  | nil => exact ⟨[], [], a, rfl, by simp [seekItems], by simpa using ha, by simp, by simp⟩
  | cons x is ih =>
    have hend : Dimension.addSummary (cum pre : D) (Item.summary x) = cum (pre ++ [x]) := by
      rw [cum_append]
      rfl
    rw [length_cons] at hlen
    rw [map_cons, zip_cons_cons]
    by_cases hpass : passes (target (cum (pre ++ [x]))) bias = true
    · obtain ⟨a₁, ha₁, hin₁⟩ := hg.pushItem x ha (by omega)
      obtain ⟨xs, ys, a', rfl, heq, hin, hpassed, hstop⟩ :=
        ih (index + 1) (pre ++ [x]) hin₁ (by simp only [length_append, length_singleton]; omega)
      simp only [append_assoc, singleton_append] at heq hin hpassed hstop
      refine ⟨x :: xs, ys, a', rfl, ?_, hin, ?_, by simpa using hstop⟩
      · rw [seekItems, hend, if_pos hpass, ha₁, bind_some, heq, length_cons]
        congr 2
        omega
      · intro _
        rcases xs with _ | ⟨y, xs⟩
        · exact hpass
        · exact hpassed (by simp)
    · refine ⟨[], x :: is, a, rfl, ?_, by simpa using ha, by simp, ?_⟩
      · rw [seekItems, hend, if_neg hpass]
        simp
      · intro y hy
        obtain rfl : x = y := by simpa using hy
        simpa using hpass

theorem seekTurn_leaf (t : SumTree T S) (rest : List (StackEntry T S D)) (hg : Gathers agg out inLeaf) {is : List T} (hlen : is.length ≤ 2 * TREE_BASE) (k : Nat) (pre : List T)
    {a : A} {p : List T} (ha : out a p) (q : D) (e b : Bool) : ∃ xs ys a', is.drop k = xs ++ ys ∧
    seekTurn agg target bias (⟨t, ⟨leaf (sumOf is) is (is.map Item.summary), k, q⟩ :: rest, cum (pre ++ is.take k), true, e⟩,
        a, b) =
      some (if ys.isEmpty then .inl (⟨t, rest, cum (pre ++ is.take k ++ xs), true, e⟩, a', true)
        else .inr (⟨t, ⟨leaf (sumOf is) is (is.map Item.summary), k + xs.length, q⟩ :: rest,
          cum (pre ++ is.take k ++ xs), true, e⟩, a')) ∧
    out a' (p ++ xs) ∧ (xs ≠ [] → passes (target (cum (pre ++ is.take k ++ xs))) bias = true) ∧
    ∀ y ∈ ys.head?, passes (target (cum (pre ++ is.take k ++ xs ++ [y]))) bias = false := by
  obtain ⟨xs, ys, a₁, hdrop, heq, hin, hpassed, hstop⟩ := seekItems_spec target bias hg (is.drop k) k
    (pre ++ is.take k) (hg.beginLeaf ha) (by rw [length_drop, length_nil]; omega)
  obtain ⟨a', ha', hout⟩ := hg.endLeaf hin
  refine ⟨xs, ys, a', hdrop, ?_, by simpa using hout, hpassed, hstop⟩
  simp only [seekTurn]
  rw [← map_drop, heq, bind_some]
  simp only [ha', map_some]
  cases ys <;> rfl

/-- A turn at a node, when the children before some of them are done: it goes down into one of these, or the
node is done. -/
theorem seekTurn_internal (hm : Measures t target bias) (hg : Gathers agg out inLeaf) {s : S} {cs ds ts : List (SumTree T S)}
    (hcs : cs = ds ++ ts) (hp : Path t rest (h + 1) (internal (h + 1) s (cs.map SumTree.summary) cs) pre post)
    (hcap : t.height < STACK_CAPACITY) {a : A} {p : List T} (ha : out a p) {i : Nat} {q : D} {b : Bool}
    (hi : (if b then i + 1 else i) = ds.length) (hq : b = false → q = cum (pre ++ flatAll ds)) (e : Bool) :
    ∃ ls rs a', ts = ls ++ rs ∧
    seekTurn agg target bias (⟨t, ⟨internal (h + 1) s (cs.map SumTree.summary) cs, i, q⟩ :: rest,
        cum (pre ++ flatAll ds), true, e⟩, a, b) =
      some (.inl (match rs with
        | [] => (⟨t, rest, cum (pre ++ flatAll ds ++ flatAll ls), true, e⟩, a', true)
        | v :: _ => (⟨t, ⟨v, 0, cum (pre ++ flatAll ds ++ flatAll ls)⟩ ::
            ⟨internal (h + 1) s (cs.map SumTree.summary) cs, (ds ++ ls).length,
              cum (pre ++ flatAll ds ++ flatAll ls)⟩ :: rest,
            cum (pre ++ flatAll ds ++ flatAll ls), true, e⟩, a', false))) ∧
    out a' (p ++ flatAll ls) ∧
    (ls ≠ [] → passes (target (cum (pre ++ flatAll ds ++ flatAll ls))) bias = true) := by
  obtain ⟨_, heq, _, _, hwf⟩ := hp.wf.children
  obtain ⟨_, _, _, rfl⟩ := SumTree.internal.inj heq
  have hlen := hp.length_eq
  have hflat : t.flat = pre ++ flatAll ds ++ flatAll ts ++ post := by
    rw [hp.flat_eq, flat, hcs, flatAll_append, ← append_assoc pre]
  obtain ⟨ls, rs, a', hts, hseek, hout, hpassed⟩ := seekChildren_spec target bias hm hg
    (fun v hv => hwf v (by rw [hcs]; exact mem_append_right _ hv)) ds.length hflat ha
  refine ⟨ls, rs, a', hts, ?_, hout, hpassed⟩
  have hentry : (if b then (⟨internal (h + 1) s (cs.map SumTree.summary) cs, i + 1,
        cum (pre ++ flatAll ds)⟩ : StackEntry T S D)
      else ⟨internal (h + 1) s (cs.map SumTree.summary) cs, i, q⟩) =
      ⟨internal (h + 1) s (cs.map SumTree.summary) cs, ds.length, cum (pre ++ flatAll ds)⟩ := by
    cases b
    · rw [← hi, hq rfl]
      rfl
    · rw [← hi]
      rfl
  have hdrop : cs.drop ds.length = ts := by rw [hcs, drop_left]
  simp only [seekTurn]
  rw [hentry, ← map_drop]
  simp only [hdrop, hseek, bind_some]
  rcases rs with _ | ⟨v, rs⟩
  · rfl
  · simp only [List.head?_cons, length_append]
    rw [pushEntry_eq (by simp only [length_cons]; omega)]
    rfl

/-- Where a seek ends that has `pre` behind it and has gathered `p`. -/
def Sought (out : A → List T → Prop) (target : D → Ordering) (bias : Bias) (t : SumTree T S) (pre p : List T)
    (r : TreeCursor T S D × A) : Prop :=
  ∃ w post, t.flat = pre ++ w ++ post ∧ Stands t { r.1 with atEnd := r.1.stack.isEmpty } (.at (pre ++ w).length) ∧
    out r.2 (p ++ w) ∧ (w ≠ [] → passes (target (cum (pre ++ w))) bias = true) ∧
    ∀ y ∈ post.head?, passes (target (cum (pre ++ w ++ [y]))) bias = false

variable {target bias}

theorem Sought.prepend {p x : List T} {r : TreeCursor T S D × A} (hs : Sought out target bias t (pre ++ x) (p ++ x) r)
    (hx : x ≠ [] → passes (target (cum (pre ++ x))) bias = true) : Sought out target bias t pre p r := by
  obtain ⟨w, post, hflat, hst, hout, hpassed, hstop⟩ := hs
  simp only [append_assoc] at hflat hst hout hpassed hstop
  refine ⟨x ++ w, post, by simpa using hflat, hst, hout, ?_, by simpa using hstop⟩
  intro hne
  rcases w with _ | ⟨y, w⟩
  · rw [append_nil] at hne ⊢
    exact hx hne
  · exact hpassed (by simp)

theorem sought_leaf {is xs ys p : List T} {k : Nat} {a : A} {q : D} {e : Bool}
    (hp : Path t rest 0 (leaf (sumOf is) is (is.map Item.summary)) pre post) (hdrop : is.drop k = xs ++ ys) (hys : ys ≠ [])
    (hout : out a (p ++ xs)) (hpassed : xs ≠ [] → passes (target (cum (pre ++ is.take k ++ xs))) bias = true)
    (hstop : ∀ y ∈ ys.head?, passes (target (cum (pre ++ is.take k ++ xs ++ [y]))) bias = false) :
    Sought out target bias t (pre ++ is.take k) p (⟨t, ⟨leaf (sumOf is) is (is.map Item.summary), k + xs.length, q⟩ :: rest,
      cum (pre ++ is.take k ++ xs), true, e⟩, a) := by
  have his : is = is.take k ++ xs ++ ys := by rw [append_assoc, ← hdrop, take_append_drop]
  have hlen : (xs ++ ys).length = is.length - k := by rw [← hdrop, length_drop]
  have hpos := List.length_pos_iff.2 hys
  rw [length_append] at hlen
  have htake : is.take (k + xs.length) = is.take k ++ xs := by
    conv_lhs => rw [his]
    rw [take_append_of_le_length (by rw [length_append, length_take]; omega), take_of_length_le]
    rw [length_append, length_take]
    omega
  refine ⟨xs, ys ++ post, ?_, ?_, hout, hpassed, ?_⟩
  · rw [hp.flat_eq, flat]
    conv_lhs => rw [his]
    simp only [append_assoc]
  · have hs := Stands.at (q := q) hp (k := k + xs.length) (by simp only [flat]; omega)
    simp only [flat, htake, ← append_assoc] at hs
    have hidx : pre.length + (k + xs.length) = (pre ++ is.take k ++ xs).length := by
      simp only [length_append, length_take]
      omega
    rw [hidx] at hs
    exact hs
  · rwa [List.head?_append_of_ne_nil _ hys]

/-- So many turns below some entries of a stack: the seek has stopped, or it has passed the items there and is up
again at these entries. -/
def SeeksThrough (agg : SeekAggregate T S A) (out : A → List T → Prop) (target : D → Ordering) (bias : Bias) (t : SumTree T S)
    (rest : List (StackEntry T S D)) (e : Bool) (pre p w : List T) (n : Nat) (st : TreeCursor T S D × A × Bool) : Prop :=
  (∃ r, loop (seekTurn agg target bias) n st = some r ∧ Sought out target bias t pre p r) ∨
  ∃ a, out a (p ++ w) ∧ (w ≠ [] → passes (target (cum (pre ++ w))) bias = true) ∧
    ∀ m r, loop (seekTurn agg target bias) m (⟨t, rest, cum (pre ++ w), true, e⟩, a, true) = some r →
      loop (seekTurn agg target bias) (m + n) st = some r

section Through

variable {p x y w : List T} {n m : Nat} {st st' : TreeCursor T S D × A × Bool} {e : Bool}

theorem SeeksThrough.mono (hs : SeeksThrough agg out target bias t rest e pre p w n st) (hle : n ≤ m) :
    SeeksThrough agg out target bias t rest e pre p w m st := by
  obtain ⟨r, hloop, hsought⟩ | ⟨a, hout, hpassed, hloop⟩ := hs
  · exact .inl ⟨r, loop_mono hloop hle, hsought⟩
  · exact .inr ⟨a, hout, hpassed, fun k r hr => loop_mono (hloop k r hr) (Nat.add_le_add_left hle k)⟩

theorem SeeksThrough.turn (hturn : seekTurn agg target bias st = some (.inl st'))
    (hs : SeeksThrough agg out target bias t rest e pre p w n st') :
    SeeksThrough agg out target bias t rest e pre p w (n + 1) st := by
  obtain ⟨r, hloop, hsought⟩ | ⟨a, hout, hpassed, hloop⟩ := hs
  · exact .inl ⟨r, loop_next hturn hloop, hsought⟩
  · exact .inr ⟨a, hout, hpassed, fun k r hr => loop_next hturn (hloop k r hr)⟩

theorem SeeksThrough.prepend (hs : SeeksThrough agg out target bias t rest e (pre ++ x) (p ++ x) w n st)
    (hx : x ≠ [] → passes (target (cum (pre ++ x))) bias = true) :
    SeeksThrough agg out target bias t rest e pre p (x ++ w) n st := by
  obtain ⟨r, hloop, hsought⟩ | ⟨a, hout, hpassed, hloop⟩ := hs
  · exact .inl ⟨r, hloop, hsought.prepend hx⟩
  · rw [append_assoc] at hout hpassed
    refine .inr ⟨a, hout, ?_, fun k r hr => hloop k r (by rwa [← append_assoc] at hr)⟩
    intro hne
    rcases w with _ | ⟨z, w⟩
    · rw [append_nil] at hne ⊢
      exact hx hne
    · exact hpassed (by simp)

theorem SeeksThrough.trans {entry : StackEntry T S D}
    (hs : SeeksThrough agg out target bias t (entry :: rest) e pre p x n st)
    (hnext : ∀ a, out a (p ++ x) →
      SeeksThrough agg out target bias t rest e (pre ++ x) (p ++ x) w m (⟨t, entry :: rest, cum (pre ++ x), true, e⟩, a, true)) :
    SeeksThrough agg out target bias t rest e pre p (x ++ w) (m + n) st := by
  obtain ⟨r, hloop, hsought⟩ | ⟨a, hout, hpassed, hloop⟩ := hs
  · exact .inl ⟨r, loop_mono hloop (Nat.le_add_left n m), hsought⟩
  · obtain ⟨r, hloop', hsought⟩ | ⟨a', hout', hpassed', hloop'⟩ := (hnext a hout).prepend hpassed
    · exact .inl ⟨r, hloop m r hloop', hsought⟩
    · refine .inr ⟨a', hout', hpassed', fun k r hr => ?_⟩
      rw [← Nat.add_assoc]
      exact hloop (k + m) r (hloop' k r hr)

end Through

variable (target bias)

section

variable (hm : Measures t target bias) (hg : Gathers agg out inLeaf)
  (hcap : t.height < STACK_CAPACITY)
include hm hg hcap

theorem seek_children (e : Bool)
    (hsub : ∀ {v : SumTree T S} {rest : List (StackEntry T S D)} {pre post : List T} {a : A} {p : List T}, Path t rest h v pre post →
      out a p → SeeksThrough agg out target bias t rest e pre p v.flat (2 * v.nodes - 1)
        (⟨t, ⟨v, 0, cum pre⟩ :: rest, cum pre, true, e⟩, a, false))
    {s : S} {cs : List (SumTree T S)} (hp : Path t rest (h + 1) (internal (h + 1) s (cs.map SumTree.summary) cs) pre post)
    {ds ts : List (SumTree T S)} (hcs : cs = ds ++ ts) {a : A} {p : List T} (ha : out a p) {i : Nat} {q : D} {b : Bool}
    (hi : (if b then i + 1 else i) = ds.length) (hq : b = false → q = cum (pre ++ flatAll ds)) :
    SeeksThrough agg out target bias t rest e (pre ++ flatAll ds) p (flatAll ts) (2 * nodes.nodesAll ts + 1)
      (⟨t, ⟨internal (h + 1) s (cs.map SumTree.summary) cs, i, q⟩ :: rest, cum (pre ++ flatAll ds), true, e⟩, a, b) := by
  induction hn : ts.length using Nat.strong_induction_on generalizing ds ts a p i q b with
  | _ n ih =>
    obtain ⟨ls, rs, a', rfl, hturn, hout, hpassed⟩ := seekTurn_internal target bias hm hg hcs hp hcap ha hi hq e
    have hls : flatAll ls ≠ [] → passes (target (cum (pre ++ flatAll ds ++ flatAll ls))) bias = true := by
      refine fun hne => hpassed ?_
      rintro rfl
      simp [flatAll] at hne
    rcases rs with _ | ⟨v, rs⟩
    · -- the node is done
      refine .inr ⟨a', by simpa using hout, by simpa using hls, fun m r hr => ?_⟩
      rw [append_nil] at hr
      exact loop_mono (loop_next hturn hr) (by omega)
    · have hp' := hp.step (ds ++ ls) v rs (by rw [hcs, append_assoc]; rfl)
      rw [flatAll_append, ← append_assoc] at hp'
      have hpre : pre ++ flatAll (ds ++ ls ++ [v]) = pre ++ flatAll ds ++ flatAll ls ++ v.flat := by
        simp only [flatAll_append, flatAll_singleton, append_assoc]
      have hrest : ∀ a'', out a'' (p ++ flatAll ls ++ v.flat) →
          SeeksThrough agg out target bias t rest e (pre ++ flatAll ds ++ flatAll ls ++ v.flat) (p ++ flatAll ls ++ v.flat)
            (flatAll rs) (2 * nodes.nodesAll rs + 1) (⟨t, ⟨internal (h + 1) s (cs.map SumTree.summary) cs, (ds ++ ls).length,
              cum (pre ++ flatAll ds ++ flatAll ls)⟩ :: rest, cum (pre ++ flatAll ds ++ flatAll ls ++ v.flat), true, e⟩,
              a'', true) := by
        intro a'' ha''
        rw [← hpre]
        refine ih rs.length ?_ (show cs = ds ++ ls ++ [v] ++ rs by rw [hcs]; simp) ha'' ?_ (by simp) rfl
        · rw [← hn, length_append, length_cons]
          omega
        · rw [if_pos rfl]
          simp only [length_append, length_singleton, Nat.add_assoc]
      have hthrough := (((hsub hp' hout).trans hrest).turn hturn).prepend hls
      have hpos := nodes_pos v
      rw [flatAll_append, flatAll]
      refine hthrough.mono ?_
      rw [nodesAll_append, nodes.nodesAll]
      omega

section

variable (e : Bool) (hp : Path t rest h u pre post) {a : A} {p : List T} (ha : out a p)
include hp ha

theorem seek_through :
    SeeksThrough agg out target bias t rest e pre p u.flat (2 * u.nodes - 1)
      (⟨t, ⟨u, 0, cum pre⟩ :: rest, cum pre, true, e⟩, a, false) := by
  induction h generalizing u rest pre post a p with
  | zero =>
    obtain ⟨is, rfl, hne, hlen⟩ := hp.wf.items
    obtain ⟨xs, ys, a', hdrop, hturn, hout, hpassed, hstop⟩ :=
      seekTurn_leaf target bias t rest hg hlen 0 pre ha (cum pre) e false
    by_cases hys : ys = []
    · subst hys
      obtain rfl : is = xs := by simpa using hdrop
      simp only [take_zero, append_nil, isEmpty_nil, if_true] at hturn hpassed
      exact .inr ⟨a', hout, hpassed, fun m r hr => loop_mono (loop_next hturn hr) (by rw [nodes]; omega)⟩
    · have hs := sought_leaf (q := cum pre) (e := e) hp hdrop hys hout hpassed hstop
      rw [if_neg (by simpa using hys)] at hturn
      simp only [take_zero, append_nil] at hturn hs
      exact .inl ⟨_, loop_mono (loop_done hturn 0) (by rw [nodes]; omega), hs⟩
  | succ h ih =>
    obtain ⟨ts, rfl, _, _, _⟩ := hp.wf.children
    have hs := seek_children target bias hm hg hcap e (fun hp ha => ih hp ha) hp (nil_append ts).symm ha (i := 0) (q := cum pre) (b := false)
      rfl (by simp [flatAll])
    simp only [flatAll, append_nil] at hs
    exact hs.mono (by rw [nodes]; omega)

theorem seek_up :
    ∃ r, loop (seekTurn agg target bias) (2 * (t.nodes - u.nodes) + 1) (⟨t, rest, cum (pre ++ u.flat), true, e⟩, a, true) =
      some r ∧ Sought out target bias t (pre ++ u.flat) p r := by
  induction hp generalizing a p with
  | root hwf =>
    refine ⟨_, loop_done rfl _, [], [], by simp, ?_, by simpa using ha, by simp, by simp⟩
    simpa using Stands.end
  | @child rest h s ls rs u pre post hp ih =>
    have hle := nodes_le_of_path hp
    rw [nodes, nodesAll_append, nodes.nodesAll] at hle
    have hs := seek_children target bias hm hg hcap e (fun hp ha => seek_through target bias hm hg hcap e hp ha) hp
      (show ls ++ u :: rs = (ls ++ [u]) ++ rs by simp) ha (i := ls.length) (q := cum (pre ++ flatAll ls)) (b := true)
      (by simp) (by simp)
    simp only [flatAll_append, flatAll_singleton, ← append_assoc] at hs
    obtain ⟨r, hloop, hsought⟩ | ⟨a', hout, hpassed, hloop⟩ := hs
    · exact ⟨r, loop_mono hloop (by omega), hsought⟩
    · obtain ⟨r, hup, hsought⟩ := ih hout
      simp only [flat, flatAll_append, flatAll, ← append_assoc] at hup hsought
      refine ⟨r, loop_mono (hloop _ r hup) ?_, hsought.prepend hpassed⟩
      rw [nodes, nodesAll_append, nodes.nodesAll]
      omega

end

theorem seek_leaf {is : List T}
    (hp : Path t rest 0 (leaf (sumOf is) is (is.map Item.summary)) pre post) {k : Nat}
    {a : A} {p : List T} (ha : out a p) (q : D) (e : Bool) :
    ∃ r, loop (seekTurn agg target bias) (2 * t.nodes + 2)
        (⟨t, ⟨leaf (sumOf is) is (is.map Item.summary), k, q⟩ :: rest, cum (pre ++ is.take k), true, e⟩, a, false) = some r ∧
      Sought out target bias t (pre ++ is.take k) p r := by
  obtain ⟨_, heq, hne, hlen⟩ := hp.wf.items
  obtain ⟨_, rfl, _⟩ := SumTree.leaf.inj heq
  obtain ⟨xs, ys, a', hdrop, hturn, hout, hpassed, hstop⟩ := seekTurn_leaf target bias t rest hg hlen k pre ha q e false
  by_cases hys : ys = []
  · subst hys
    have his : is.take k ++ xs = is := by
      rw [append_nil] at hdrop
      rw [← hdrop, take_append_drop]
    simp only [isEmpty_nil, if_true, append_assoc, his] at hturn
    rw [append_assoc, his] at hpassed
    obtain ⟨r, hloop, hs⟩ := seek_up target bias hm hg hcap e hp hout
    refine ⟨r, loop_mono (loop_next hturn hloop) (by omega), Sought.prepend (x := xs) ?_ ?_⟩
    · rwa [append_assoc, his]
    · rwa [append_assoc, his]
  · rw [if_neg (by simpa using hys)] at hturn
    exact ⟨_, loop_done hturn _, sought_leaf hp hdrop hys hout hpassed hstop⟩

end

theorem seek_first (hm : Measures t target bias) (hg : Gathers agg out inLeaf) (hwf : Wf h t) (hcap : t.height < STACK_CAPACITY)
    {a : A} (ha : out a []) (e : Bool) :
    ∃ r, loop (seekTurn agg target bias) (2 * t.nodes + 2)
        (⟨t, [⟨t, 0, Dimension.zero S⟩], Dimension.zero S, true, e⟩, a, false) = some r ∧
      Sought out target bias t [] [] r := by
  obtain ⟨r, hloop, hs⟩ | ⟨a', hout, hpassed, hloop⟩ := seek_through target bias hm hg hcap e (.root hwf) ha
  · exact ⟨r, loop_mono hloop (by omega), hs⟩
  · obtain ⟨r, hup, hs⟩ := seek_up target bias hm hg hcap e (.root hwf) hout
    exact ⟨r, loop_mono (hloop _ r hup) (by omega), Sought.prepend (x := t.flat) hs hpassed⟩

variable {target bias}

theorem finishSeek_eq {r : TreeCursor T S D × A} {j : Nat} (hs : Stands t { r.1 with atEnd := r.1.stack.isEmpty } (.at j)) :
    finishSeek target bias r =
      some ({ r.1 with atEnd := r.1.stack.isEmpty }, r.2, decide (target (met t.flat bias j) = .eq)) := by
  obtain ⟨⟨t', stack, position, k, e⟩, a⟩ := r
  obtain rfl : position = cum (t.flat.take j) := position_at hs
  have hsum := itemSummary_at hs
  cases bias
  · simp only [finishSeek, if_true]
    rw [hsum, map_some, behind_getElem?]
    rfl
  · rfl

theorem Sought.lands {r : TreeCursor T S D × A} (hs : Sought out target bias t pre [] r) :
    ∃ j, SeekLands t.flat target bias pre.length j ∧ Stands t { r.1 with atEnd := r.1.stack.isEmpty } (.at j) ∧
      out r.2 ((t.flat.take j).drop pre.length) := by
  obtain ⟨w, post, hflat, hst, hout, hpassed, hstop⟩ := hs
  have htake : t.flat.take (pre ++ w).length = pre ++ w := by rw [hflat, take_left]
  refine ⟨(pre ++ w).length, ⟨by simp, by simp [hflat], ?_, ?_⟩, hst, ?_⟩
  · intro hlt
    rw [htake]
    refine hpassed ?_
    rintro rfl
    simp at hlt
  · intro hlt
    rcases post with _ | ⟨y, post⟩
    · simp [hflat] at hlt
    · have hsucc : t.flat.take ((pre ++ w).length + 1) = pre ++ w ++ [y] := by
        rw [hflat, take_length_add_append]
        rfl
      rw [hsucc]
      exact hstop y rfl
  · rw [htake, drop_left]
    exact hout

theorem seekInternal_spec (hm : Measures t target bias) (hg : Gathers agg out inLeaf) (hok : Ok t) (hcap : t.height < STACK_CAPACITY)
    {c : TreeCursor T S D} {p : Place} (hs : Stands t c p) {i : Nat} (hi : p.index = some i)
    (hge : target c.position ≠ .lt) {a : A} (ha : out a []) :
    ∃ c' a' j, c.seekInternal agg target bias a = some (c', a', decide (target (met t.flat bias j) = .eq)) ∧
      Stands t c' (.at j) ∧ SeekLands t.flat target bias i j ∧ out a' ((t.flat.take j).drop i) := by
  -- it remains to run the loop from where the cursor stands
  suffices hrun : ∃ pre c₁ r, pre.length = i ∧
      c.enter = some c₁ ∧ loop (seekTurn agg target bias) c₁.fuel (c₁, a, false) = some r ∧ Sought out target bias t pre [] r by
    obtain ⟨pre, c₁, r, rfl, hc₁, hloop, hsought⟩ := hrun
    obtain ⟨j, hlands, hst, hout⟩ := hsought.lands
    refine ⟨_, r.2, j, ?_, hst, hlands, hout⟩
    rw [seekInternal, if_neg hge, hc₁, bind_some, hloop, bind_some, finishSeek_eq hst]
  cases hs with
  | fresh =>
    obtain rfl : 0 = i := by simpa [Place.index] using hi
    rcases hok with rfl | ⟨h, hwf⟩
    · obtain ⟨a', ha', hout⟩ := hg.endLeaf (hg.beginLeaf ha)
      have hturn : seekTurn agg target bias
          (⟨SumTree.new, [⟨SumTree.new, 0, Dimension.zero S⟩], Dimension.zero S, true, true⟩, a, false) =
          some (.inl (⟨SumTree.new, [], Dimension.zero S, true, true⟩, a', true)) := by
        simp [seekTurn, SumTree.new, seekItems, ha']
      exact ⟨[], _, _, rfl, rfl, loop_mono (loop_next hturn (loop_done rfl 0)) (Nat.le_add_left 2 _), [], [],
        by simp [SumTree.new, flat], .end, hout, by simp, by simp⟩
    · obtain ⟨r, hloop, hsought⟩ := seek_first target bias hm hg hwf hcap ha t.isEmpty
      exact ⟨[], _, r, rfl, rfl, hloop, hsought⟩
  | before _ => simp [Place.index] at hi
  | lost => simp [Place.index] at hi
  | @«at» u rest pre post k q hp hk =>
    obtain ⟨is, rfl, hne, _⟩ := hp.wf.items
    simp only [flat] at hk
    obtain rfl : pre.length + k = i := by simpa [Place.index] using hi
    obtain ⟨r, hloop, hsought⟩ := seek_leaf target bias (k := k) hm hg hcap hp ha q false
    refine ⟨pre ++ is.take k, _, r, ?_, rfl, hloop, hsought⟩
    rw [length_append, length_take]
    omega
  | «end» =>
    obtain rfl : t.flat.length = i := by simpa [Place.index] using hi
    refine ⟨t.flat, _, _, rfl, rfl, rfl, [], [], by simp, ?_, ha, by simp, by simp⟩
    simpa using Stands.end

/-- A seek from before the first item passes over nothing, and loses the cursor. -/
theorem seekInternal_lost {c : TreeCursor T S D} {p : Place} (hs : Stands t c p) (hp : p.index = none)
    (hge : target c.position ≠ .lt) (a : A) :
    ∃ c' b, c.seekInternal agg target bias a = some (c', a, b) ∧ Stands t c' .lost := by
  have hnil : ∀ (d : D) (e : Bool), target d ≠ .lt → (⟨t, [], d, true, e⟩ : TreeCursor T S D).seekInternal agg target bias a =
      some (⟨t, [], d, true, true⟩, a, decide (target d = .eq)) := by
    intro d e hd
    rw [seekInternal, if_neg hd]
    cases bias <;> rfl
  cases hs with
  | before _ => exact ⟨_, _, hnil _ _ hge, .lost⟩
  | lost => exact ⟨_, _, hnil _ _ hge, .lost⟩
  | fresh => simp [Place.index] at hp
  | «at» _ _ => simp [Place.index] at hp
  | «end» => simp [Place.index] at hp

/-! ## What is gathered -/

theorem gathers_nothing : Gathers (noAggregate : SeekAggregate T S Unit) (fun _ _ => True) (fun _ _ _ => True) where
  beginLeaf _ := trivial
  pushItem _ _ _ := ⟨(), rfl, trivial⟩
  endLeaf _ := ⟨(), rfl, trivial⟩
  pushTree _ _ := ⟨(), rfl, trivial⟩

/-- A slice between leaves is a tree of the items that were passed. In a leaf, the items of that leaf wait beside
the tree. -/
inductive InSlice : Slice T S → List T → List T → Prop where
  | mk {tree : SumTree T S} {q : List T} : tree.Ok → q.length ≤ 2 * TREE_BASE →
      InSlice ⟨tree, q, q.map Item.summary, sumOf q⟩ tree.flat q

theorem InSlice.tree {a : Slice T S} {p q : List T} (h : InSlice a p q) : a.tree.Ok ∧ a.tree.flat = p := by
  cases h with
  | mk hok _ => exact ⟨hok, rfl⟩

variable [LawfulSummary S]

theorem gathers_slice :
    Gathers (sliceAggregate : SeekAggregate T S (Slice T S)) (fun a p => InSlice a p []) InSlice where
  beginLeaf h := h
  pushItem := by
    rintro _ _ q x ⟨hok, _⟩ hlen
    have hfits : (q ++ [x]).length ≤ 2 * TREE_BASE := by
      rw [length_append, length_singleton]
      exact hlen
    refine ⟨_, ?_, .mk hok hfits⟩
    have hsum : Summary.addSummary (sumOf q : S) (Item.summary x) = sumOf (q ++ [x]) := by
      have hone : (sumOf [x] : S) = Item.summary x := sum_singleton _
      rw [sumOf_append _ (by simp), hone]
    simp only [sliceAggregate, hsum, ← map_singleton, ← map_append, fits, length_map, if_pos hfits]
    rfl
  endLeaf := by
    rintro _ _ q ⟨hok, hfits⟩
    have hleaf : (leaf (sumOf q) q (q.map Item.summary) : SumTree T S).Ok := by
      by_cases hne : q = []
      · subst hne
        exact Or.inl rfl
      · exact Or.inr ⟨0, .leaf hne hfits⟩
    obtain ⟨v, hv, hvok, hvflat⟩ := append_spec hok hleaf
    refine ⟨⟨v, [], [], Summary.zero⟩, ?_, ?_⟩
    · simp only [sliceAggregate, hv, map_some]
    · rw [flat] at hvflat
      rw [← hvflat]
      exact .mk hvok (Nat.zero_le _)
  pushTree := by
    rintro _ _ h u ⟨hok, hfits⟩ hwf
    obtain ⟨v, hv, hvok, hvflat⟩ := append_spec hok (Or.inr ⟨h, hwf⟩)
    refine ⟨⟨v, [], [], Summary.zero⟩, ?_, ?_⟩
    · simp only [sliceAggregate, hv, map_some]
      rfl
    · rw [← hvflat]
      exact .mk hvok (Nat.zero_le _)

theorem gathers_summary {E : Type} [Dimension E S] [LawfulDimension E S] :
    Gathers (summaryAggregate : SeekAggregate T S E) (fun a p => a = cum p) (fun a p q => a = cum (p ++ q)) where
  beginLeaf h := by rwa [append_nil]
  pushItem x h _ := by
    refine ⟨_, rfl, ?_⟩
    rw [h, ← append_assoc, cum_append (_ ++ _)]
    rfl
  endLeaf h := ⟨_, rfl, h⟩
  pushTree h hwf := by
    refine ⟨_, rfl, ?_⟩
    rw [h, hwf.add_summary, cum_append]

end TreeCursor

end SpkEditor
