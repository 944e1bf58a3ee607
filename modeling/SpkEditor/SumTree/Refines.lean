import SpkEditor.SumTree.CursorRefines

/-!
# Trees are lists

Whatever trees are built with, they hold the items that the same operations on lists give,
and are well formed (`sum_tree_refines_list`). A slice holds what the cursor went past:
`Cursor.place` reads off a cursor how many items it has behind it.

`items` walks a cursor over the tree, and so does not get over one that is higher than the
cursor's stack has room for. Such trees can be built (`sum_tree_items_overflow`).
-/

namespace SpkEditor

open SumTree List Option

variable {T S D : Type} [Summary S] [Item T S] [Dimension D S]

variable {t : SumTree T S} {target : D → Ordering} {c' : TreeCursor T S D}

/-- The dimension that measures nothing. -/
instance : Dimension Unit S := ⟨(), fun _ _ => ()⟩

instance : LawfulDimension Unit S where
  add_add _ _ _ := rfl
  zero_zero := rfl

namespace SumTree

/-- One turn of the loop of `items`. -/
def itemsTurn (st : TreeCursor T S Unit × List T) : Option ((TreeCursor T S Unit × List T) ⊕ List T) :=
  st.1.item.bind fun item =>
    match item with
    | some item => st.1.next.map fun c => .inl (c, st.2 ++ [item])
    | none => some (.inr st.2)

/-- `items`. There are as many turns as items, and one more. -/
def items (t : SumTree T S) : Option (List T) :=
  (TreeCursor.new t : TreeCursor T S Unit).next.bind fun c => loop itemsTurn (t.flat.length + 1) (c, [])

theorem items_loop (hok : t.Ok) (hcap : t.height < STACK_CAPACITY) {n i : Nat} {c : TreeCursor T S Unit}
    (hs : Stands t c (.at i)) (hn : t.flat.length = i + n) :
    loop itemsTurn (n + 1) (c, t.flat.take i) = some t.flat := by
  induction n generalizing i c with
  | zero =>
    refine loop_done ?_ 0
    rw [itemsTurn, TreeCursor.item_at hs, List.getElem?_eq_none (by omega)]
    simp only [bind_some]
    rw [take_of_length_le (by omega)]
  | succ n ih =>
    have hlt : i < t.flat.length := by omega
    obtain ⟨x, hx⟩ : ∃ x, t.flat[i]? = some x := ⟨_, List.getElem?_eq_getElem hlt⟩
    obtain ⟨c', hnext, hs'⟩ := TreeCursor.next_spec hok hcap hs
    rw [Place.next, min_eq_left hlt] at hs'
    refine loop_next ?_ (ih hs' (by omega))
    simp only [itemsTurn, TreeCursor.item_at hs, hx, bind_some, hnext, map_some]
    rw [take_add_one, hx]
    rfl

theorem items_eq (hok : t.Ok) (hcap : t.height < STACK_CAPACITY) : t.items = some t.flat := by
  obtain ⟨c, hnext, hs⟩ := TreeCursor.next_spec hok hcap (.fresh : Stands t (TreeCursor.new t : TreeCursor T S Unit) .fresh)
  rw [items, hnext, bind_some]
  exact items_loop hok hcap (i := 0) hs (zero_add _).symm

end SumTree

/-! ## Where a cursor has got to -/

def StackEntry.before (entry : StackEntry T S D) : Nat :=
  match entry.tree with
  | .internal _ _ _ childTrees => (flatAll (childTrees.take entry.index)).length
  | .leaf .. => entry.index

def TreeCursor.place (c : TreeCursor T S D) : Place :=
  if ¬ c.didSeek then .fresh
  else if c.stack.isEmpty then (if c.atEnd then .at c.tree.flat.length else .before)
  else .at (c.stack.map StackEntry.before).sum

/-- The items between two places. From before the first item nothing is passed. -/
def Place.between (l : List T) : Place → Place → List T
  | p, .at j =>
    match p.index with
    | some i => (l.take j).drop i
    | none => []
  | _, _ => []

theorem SumTree.Path.sum_before {u : SumTree T S} {rest : List (StackEntry T S D)} {h : Nat} {pre post : List T}
    (hp : Path t rest h u pre post) : (rest.map StackEntry.before).sum = pre.length := by
  induction hp with
  | root _ => rfl
  | child _ ih =>
    rw [map_cons, sum_cons, ih, StackEntry.before]
    simp only [take_left, length_append]
    omega

namespace TreeCursor

variable {t : SumTree T S} {c : TreeCursor T S D} {p : Place}

theorem place_eq (hs : Stands t c p) : c.place = if p = .lost then .at t.flat.length else p := by
  cases hs with
  | fresh => rfl
  | before _ => rfl
  | @«at» u rest pre post k q hp hk =>
    obtain ⟨is, rfl, _, _⟩ := hp.wf.items
    have hsum := hp.sum_before
    simp only [place, not_true_eq_false, if_false, isEmpty_cons, Bool.false_eq_true, map_cons, sum_cons,
      hsum, reduceCtorEq, StackEntry.before]
    rw [add_comm]
  | «end» => rfl
  | lost => rfl

/-- Cursors that calls lead to. -/
def Reached (t : SumTree T S) (c : TreeCursor T S D) : Prop :=
  ∃ calls answers, (TreeCursor.new t : TreeCursor T S D).calls (E := Unit) calls = some (c, answers)

variable [LawfulSummary S] [LawfulDimension D S]

theorem seekInternal_between {A : Type} {agg : SeekAggregate T S A} {out : A → List T → Prop}
    {inLeaf : A → List T → List T → Prop} (hg : Gathers agg out inLeaf) (hok : Ok t) (hcap : t.height < STACK_CAPACITY)
    (hs : Stands t c p) (bias : Bias) (hge : target c.position ≠ .lt) {a : A} (ha : out a []) :
    ∃ c' a' b p', c.seekInternal agg target bias a = some (c', a', b) ∧ Stands t c' p' ∧
      out a' (c.place.between t.flat c'.place) := by
  cases hi : p.index with
  | some i =>
    obtain ⟨c', a', j, hseek, hs', -, hout⟩ := seekInternal_spec (measures_of_lawful t target bias) hg hok hcap hs hi hge ha
    refine ⟨c', a', _, .at j, hseek, hs', ?_⟩
    have hp : p ≠ .lost := by
      rintro rfl
      simp [Place.index] at hi
    rw [place_eq hs, place_eq hs', if_neg hp, if_neg (by simp), Place.between, hi]
    exact hout
  | none =>
    obtain ⟨c', b, hseek, hs'⟩ := seekInternal_lost hs hi hge a
    refine ⟨c', a, b, .lost, hseek, hs', ?_⟩
    have hnil : c.place.between t.flat c'.place = [] := by
      rw [place_eq hs, place_eq hs', if_pos rfl]
      cases p with
      | before => rfl
      | lost => simp [Place.between, Place.index]
      | fresh => simp [Place.index] at hi
      | «at» i => simp [Place.index] at hi
    rw [hnil]
    exact ha

theorem slice_between (hok : Ok t) (hcap : t.height < STACK_CAPACITY) (hs : Stands t c p)
    (bias : Bias) (hge : target c.position ≠ .lt) :
    ∃ c' s p', c.slice target bias = some (c', s) ∧ Stands t c' p' ∧ s.Ok ∧ s.flat = c.place.between t.flat c'.place := by
  obtain ⟨c', a', b, p', hseek, hs', hslice⟩ := seekInternal_between gathers_slice
    (a := ⟨SumTree.new, [], [], Summary.zero⟩) hok hcap hs bias hge (.mk (.inl rfl) (Nat.zero_le _))
  generalize hx : c.place.between t.flat c'.place = passed at hslice
  cases hslice with
  | mk hsok _ => exact ⟨c', _, p', by rw [slice, hseek]; rfl, hs', hsok, hx.symm⟩

omit [Summary S] [Item T S] [LawfulSummary S] [LawfulDimension D S] in
theorem position_of_seekInternal {A : Type} {agg : SeekAggregate T S A} {bias : Bias} {a : A}
    {r : TreeCursor T S D × A × Bool} (h : c.seekInternal agg target bias a = some r) : target c.position ≠ .lt := by
  intro hlt
  rw [seekInternal, if_pos hlt] at h
  simp at h

theorem call_stands {E : Type} [Dimension E S] [LawfulDimension E S] (hok : Ok t) (hcap : t.height < STACK_CAPACITY)
    (hs : Stands t c p) {call : CursorCall D} {answer : CursorAnswer (SumTree T S) E}
    (hcall : c.call call = some (c', answer)) : ∃ p', Stands t c' p' := by
  -- a seek of any kind
  have hseek : ∀ {A : Type} {agg : SeekAggregate T S A} {out : A → List T → Prop} {inLeaf : A → List T → List T → Prop}
      {d : TreeCursor T S D} {q : Place} {target : D → Ordering} {bias : Bias} {a : A} {r : TreeCursor T S D × A × Bool},
      Gathers agg out inLeaf → out a [] → Stands t d q → d.seekInternal agg target bias a = some r →
      ∃ p', Stands t r.1 p' := by
    intro A agg out inLeaf d q target bias a r hg ha hd hr
    obtain ⟨c₁, a₁, b, p₁, hr₁, hs₁, -⟩ := seekInternal_between hg hok hcap hd bias (position_of_seekInternal hr) ha
    obtain rfl : (c₁, a₁, b) = r := some.inj (hr₁.symm.trans hr)
    exact ⟨p₁, hs₁⟩
  cases call with
  | seek target bias =>
    obtain ⟨_, hr', heq⟩ := Option.map_eq_some_iff.1 hcall
    obtain ⟨r, hr, rfl⟩ := Option.map_eq_some_iff.1 hr'
    cases heq
    rw [reset_eq hs] at hr
    exact hseek gathers_nothing trivial .fresh hr
  | seekForward target bias =>
    obtain ⟨_, hr', heq⟩ := Option.map_eq_some_iff.1 hcall
    obtain ⟨r, hr, rfl⟩ := Option.map_eq_some_iff.1 hr'
    cases heq
    exact hseek gathers_nothing trivial hs hr
  | slice target bias =>
    obtain ⟨_, hr', heq⟩ := Option.map_eq_some_iff.1 hcall
    obtain ⟨r, hr, rfl⟩ := Option.map_eq_some_iff.1 hr'
    cases heq
    exact hseek gathers_slice (.mk (.inl rfl) (Nat.zero_le _)) hs hr
  | summary target bias =>
    obtain ⟨_, hr', heq⟩ := Option.map_eq_some_iff.1 hcall
    obtain ⟨r, hr, rfl⟩ := Option.map_eq_some_iff.1 hr'
    cases heq
    exact hseek (gathers_summary (E := E)) rfl hs hr
  | next =>
    obtain ⟨c₁, hnext, rfl, -⟩ := map_eq_some_pair hcall
    obtain ⟨c₂, hnext', hs'⟩ := next_spec hok hcap hs
    obtain rfl : c₂ = c₁ := some.inj (hnext'.symm.trans hnext)
    exact ⟨_, hs'⟩
  | prev =>
    obtain ⟨c₁, hprev, rfl, -⟩ := map_eq_some_pair hcall
    obtain ⟨c₂, hprev', hs'⟩ := prev_spec hok hcap hs
    obtain rfl : c₂ = c₁ := some.inj (hprev'.symm.trans hprev)
    exact ⟨_, hs'⟩

theorem calls_stands (hok : Ok t) (hcap : t.height < STACK_CAPACITY) (hs : Stands t c p) {calls : List (CursorCall D)} {answers : List (CursorAnswer (SumTree T S) Unit)} (hcalls : c.calls calls = some (c', answers)) :
    ∃ p', Stands t c' p' := by
  induction calls generalizing c p answers with
  | nil =>
    cases hcalls
    exact ⟨p, hs⟩
  | cons call calls ih =>
    rw [TreeCursor.calls, bind_eq_some_iff] at hcalls
    obtain ⟨r, hcall, hcalls⟩ := hcalls
    obtain ⟨r', hrest, rfl, -⟩ := map_eq_some_pair hcalls
    obtain ⟨p₁, hs₁⟩ := call_stands hok hcap hs hcall
    exact ih hs₁ hrest

theorem Reached.stands (hok : Ok t) (hcap : t.height < STACK_CAPACITY) (hr : Reached t c) : ∃ p, Stands t c p := by
  obtain ⟨calls, answers, hcalls⟩ := hr
  exact calls_stands hok hcap .fresh hcalls

end TreeCursor

/-! ## Building -/

/-- Trees that are built by the operations, with what the same operations on lists give. Cursors are moved over trees
that fit their stack. -/
inductive Built : SumTree T S → List T → Prop where
  | new : Built SumTree.new []
  | push {t t' : SumTree T S} {l : List T} (item : T) : Built t l → t.push item = some t' → Built t' (l ++ [item])
  | fromIter {t : SumTree T S} (items : List T) : SumTree.fromIter items = some t → Built t items
  | fromParIter {t : SumTree T S} (items : List T) : SumTree.fromParIter items = some t → Built t items
  | extend {t t' : SumTree T S} {l : List T} (items : List T) : Built t l → t.extend items = some t' →
      Built t' (l ++ items)
  | parExtend {t t' : SumTree T S} {l : List T} (items : List T) : Built t l → t.parExtend items = some t' →
      Built t' (l ++ items)
  | append {t u t' : SumTree T S} {l m : List T} : Built t l → Built u m → t.append u = some t' → Built t' (l ++ m)
  | updateFirst {t t' : SumTree T S} {l : List T} (f : T → T) : Built t l → t.updateFirst f = some t' →
      Built t' (l.modifyHead f)
  | updateLast {t t' : SumTree T S} {l : List T} (f : T → T) : Built t l → t.updateLast f = some t' →
      Built t' (l.modifyLast f)
  | slice {t s : SumTree T S} {l : List T} {D : Type} [Dimension D S] [LawfulDimension D S] {c c' : TreeCursor T S D}
      (target : D → Ordering) (bias : Bias) : Built t l → t.height < STACK_CAPACITY → TreeCursor.Reached t c →
      c.slice target bias = some (c', s) → Built s (c.place.between l c'.place)
  | suffix {t s : SumTree T S} {l : List T} {D : Type} [Dimension D S] [LawfulDimension D S] {c c' : TreeCursor T S D} :
      Built t l → t.height < STACK_CAPACITY → TreeCursor.Reached t c → c.suffix = some (c', s) →
      Built s (c.place.between l c'.place)

variable [LawfulSummary S]

theorem slice_ok {s : SumTree T S} [LawfulDimension D S] {c : TreeCursor T S D} {bias : Bias}
    (hok : t.Ok) (hcap : t.height < STACK_CAPACITY) (hr : TreeCursor.Reached t c) (hslice : c.slice target bias = some (c', s)) :
    s.Ok ∧ s.flat = c.place.between t.flat c'.place := by
  obtain ⟨p, hs⟩ := hr.stands hok hcap
  obtain ⟨r, hr', -⟩ := Option.map_eq_some_iff.1 hslice
  obtain ⟨c₁, s₁, _, hslice₁, -, hsok, hflat⟩ :=
    TreeCursor.slice_between hok hcap hs bias (TreeCursor.position_of_seekInternal hr')
  obtain ⟨rfl, rfl⟩ := Prod.mk.inj (some.inj (hslice₁.symm.trans hslice))
  exact ⟨hsok, hflat⟩

theorem Built.ok {l : List T} (hb : Built t l) : t.Ok ∧ t.flat = l := by
  -- every operation has a result that is as it should be, so the one it had is
  have key : ∀ {o : Option (SumTree T S)} {t' : SumTree T S} {l' : List T}, (∃ v, o = some v ∧ v.Ok ∧ v.flat = l') →
      o = some t' → t'.Ok ∧ t'.flat = l' := by
    intro o t' l' hv ho
    obtain ⟨v, hv, hok, hflat⟩ := hv
    obtain rfl : v = t' := some.inj (hv.symm.trans ho)
    exact ⟨hok, hflat⟩
  induction hb with
  | new => exact ⟨.inl rfl, rfl⟩
  | push item _ ht' ih =>
    obtain ⟨hok, rfl⟩ := ih
    exact key (push_spec hok item) ht'
  | fromIter items ht => exact key (fromIter_spec items) ht
  | fromParIter items ht => exact key (fromParIter_spec items) ht
  | extend items _ ht' ih =>
    obtain ⟨hok, rfl⟩ := ih
    exact key (extend_spec hok items) ht'
  | parExtend items _ ht' ih =>
    obtain ⟨hok, rfl⟩ := ih
    exact key (parExtend_spec hok items) ht'
  | append _ _ ht' iht ihu =>
    obtain ⟨htok, rfl⟩ := iht
    obtain ⟨huok, rfl⟩ := ihu
    exact key (append_spec htok huok) ht'
  | updateFirst f _ ht' ih =>
    obtain ⟨hok, rfl⟩ := ih
    exact key (updateFirst_spec hok f) ht'
  | updateLast f _ ht' ih =>
    obtain ⟨hok, rfl⟩ := ih
    exact key (updateLast_spec hok f) ht'
  | slice target bias _ hcap hr hslice ih =>
    obtain ⟨hok, rfl⟩ := ih
    exact slice_ok hok hcap hr hslice
  | suffix _ hcap hr hslice ih =>
    obtain ⟨hok, rfl⟩ := ih
    exact slice_ok hok hcap hr hslice

open Width

omit [LawfulSummary S] in
theorem SumTree.Wf.length_le {h : Nat} (hwf : Wf h t) : t.flat.length ≤ (2 * TREE_BASE) ^ (h + 1) := by
  induction hwf with
  | leaf _ hlen => simpa only [flat, zero_add, Nat.pow_one] using hlen
  | @internal h ts _ hlen _ ih =>
    have hall : ∀ us : List (SumTree T S), (∀ u ∈ us, u.flat.length ≤ (2 * TREE_BASE) ^ (h + 1)) →
        (flatAll us).length ≤ us.length * (2 * TREE_BASE) ^ (h + 1) := by
      intro us hus
      induction us with
      | nil => simp [flatAll]
      | cons u us ihus =>
        have hu := hus u mem_cons_self
        have := ihus fun v hv => hus v (mem_cons_of_mem _ hv)
        rw [flatAll, length_append, length_cons, Nat.add_mul, one_mul]
        omega
    rw [flat, Nat.pow_succ, mul_comm]
    exact le_trans (hall ts ih) (Nat.mul_le_mul_right _ hlen)

omit [LawfulSummary S] in
theorem TreeCursor.forward_down_full {u : SumTree T S} {rest : List (StackEntry T S D)} {h : Nat} {pre post : List T}
    (hp : Path t rest h u pre post) (hrest : rest.length < STACK_CAPACITY) (hcap : STACK_CAPACITY ≤ t.height) (fuel : Nat) :
    loop (forwardTurn fun _ => true) fuel (⟨t, ⟨u, 0, cum pre⟩ :: rest, cum pre, true, false⟩, true) = none := by
  induction h generalizing u rest pre post fuel with
  | zero =>
    have := hp.length_eq
    omega
  | succ h ih =>
    cases fuel with
    | zero => rfl
    | succ fuel =>
      obtain ⟨ts, rfl, hne, _, _⟩ := hp.wf.children
      obtain ⟨v, ts, rfl⟩ := exists_cons_of_ne_nil hne
      have hp' := hp.step [] v ts rfl
      simp only [length_nil, flatAll, append_nil] at hp'
      by_cases hroom : rest.length + 1 < STACK_CAPACITY
      · have hdown := ih hp' hroom fuel
        simp only [loop, forwardTurn, if_true, skip_all, List.getElem?_cons_zero]
        rw [pushEntry_eq (by simpa using hroom)]
        exact hdown
      · simp only [loop, forwardTurn, if_true, skip_all, List.getElem?_cons_zero, pushEntry, length_cons,
          if_neg hroom, map_none]

omit [LawfulSummary S] in
theorem SumTree.items_none {h : Nat} (hwf : Wf h t) (hcap : STACK_CAPACITY ≤ t.height) :
    t.items = none := by
  have hnext : (TreeCursor.new t : TreeCursor T S Unit).next = none := by
    rw [TreeCursor.new, hwf.not_isEmpty]
    exact TreeCursor.forward_down_full (.root hwf) (by simp [STACK_CAPACITY]) hcap _
  rw [items, hnext, bind_none]

end SpkEditor
