import SpkEditor.SumTree.CursorSeek

/-!
# Cursors scan a list

The same calls on a list: a place in it, which a seek moves on item by item (`scan`), as
long as the items end before the target. Calls that the source does not promise anything
about have no meaning on a list: a forward seek to what is behind the cursor, or from
before the first item.

Every sequence of calls on a cursor answers what it answers on the list of the tree's
items, and then shows what the list has at the place it is at (`calls_spec`). Targets
have to be compared in order: along the tree, once the target is not after a position, it
is not after later ones, and once it is before one, it is before later ones (`Ordered`).
-/

namespace SpkEditor

open SumTree List

variable {T S D E : Type} [Summary S] [Item T S] [Dimension D S] [Dimension E S]

/-! ## Scanning a list -/

def Ordered (l : List T) (target : D → Ordering) : Prop :=
  ∀ i j, i ≤ j → j ≤ l.length →
    (target (cum (l.take j)) = .gt → target (cum (l.take i)) = .gt) ∧
    (target (cum (l.take i)) = .lt → target (cum (l.take j)) = .lt)

def passedOver (target : D → Ordering) (bias : Bias) : D → List T → Nat
  | _, [] => 0
  | d, item :: items =>
    let itemEnd := Dimension.addSummary d (Item.summary item)
    if passes (target itemEnd) bias then passedOver target bias itemEnd items + 1 else 0

/-- The first item from an index on that does not end before the target. -/
def scan (l : List T) (target : D → Ordering) (bias : Bias) (i : Nat) : Nat :=
  i + passedOver target bias (cum (l.take i)) (l.drop i)

omit [Summary S] in
theorem passedOver_spec (target : D → Ordering) (bias : Bias) (d : D) (l : List T) :
    passedOver target bias d l ≤ l.length ∧
    (0 < passedOver target bias d l → passes (target (after d (l.take (passedOver target bias d l)))) bias = true) ∧
    (passedOver target bias d l < l.length →
      passes (target (after d (l.take (passedOver target bias d l + 1)))) bias = false) := by
  induction l generalizing d with
  | nil => simp [passedOver]
  | cons x l ih =>
    obtain ⟨hle, hpassed, hstop⟩ := ih (Dimension.addSummary d (Item.summary x))
    rw [passedOver]
    by_cases hpass : passes (target (Dimension.addSummary d (Item.summary x))) bias = true
    · simp only [if_pos hpass, length_cons, take_succ_cons]
      refine ⟨by omega, fun _ => ?_, fun hlt => hstop (by omega)⟩
      rcases Nat.eq_zero_or_pos (passedOver target bias (Dimension.addSummary d (Item.summary x)) l) with h0 | hpos
      · rw [h0]
        exact hpass
      · exact hpassed hpos
    · simp only [if_neg hpass]
      exact ⟨Nat.zero_le _, fun h => absurd h (lt_irrefl 0), fun _ => by simpa [after] using hpass⟩

omit [Summary S] in
theorem scan_lands {l : List T} (target : D → Ordering) (bias : Bias) {i : Nat} (hi : i ≤ l.length) :
    SeekLands l target bias i (scan l target bias i) := by
  obtain ⟨hle, hpassed, hstop⟩ := passedOver_spec target bias (cum (l.take i)) (l.drop i)
  have htake : ∀ k, (cum (l.take (i + k)) : D) = after (cum (l.take i)) ((l.drop i).take k) := by
    intro k
    rw [take_add, cum_append]
  rw [length_drop] at hle hstop
  refine ⟨Nat.le_add_right _ _, by rw [scan]; omega, ?_, ?_⟩
  · intro hlt
    rw [scan] at hlt ⊢
    rw [htake]
    exact hpassed (by omega)
  · intro hlt
    rw [scan] at hlt ⊢
    rw [add_assoc, htake]
    exact hstop (by omega)

omit [Summary S] in
theorem Ordered.passes_of_le {l : List T} {target : D → Ordering} (ho : Ordered l target) {bias : Bias} {i j : Nat}
    (hij : i ≤ j) (hj : j ≤ l.length) (hpass : passes (target (cum (l.take j))) bias = true) :
    passes (target (cum (l.take i))) bias = true := by
  obtain ⟨hgt, hlt⟩ := ho i j hij hj
  cases hti : target (cum (l.take i)) with
  | gt => rfl
  | lt =>
    rw [hlt hti] at hpass
    simp [passes] at hpass
  | eq =>
    cases htj : target (cum (l.take j)) with
    | gt => simp [hgt htj] at hti
    | lt => simp [htj, passes] at hpass
    | eq => simpa [htj, passes] using hpass

omit [Summary S] in
theorem SeekLands.unique {l : List T} {target : D → Ordering} {bias : Bias} {i j k : Nat} (ho : Ordered l target)
    (hj : SeekLands l target bias i j) (hk : SeekLands l target bias i k) : j = k := by
  have key : ∀ {j k : Nat}, SeekLands l target bias i j → SeekLands l target bias i k → ¬ j < k := by
    intro j k hj hk hlt
    have hstop := hj.stopped (by have := hk.le_length; omega)
    have hpass := ho.passes_of_le hlt hk.le_length (hk.passed (by have := hj.le; omega))
    rw [hpass] at hstop
    simp at hstop
  have := key hj hk
  have := key hk hj
  omega

omit [Summary S] in
theorem SeekLands.eq_scan {l : List T} {target : D → Ordering} {bias : Bias} {i j : Nat} (ho : Ordered l target)
    (hj : SeekLands l target bias i j) : j = scan l target bias i :=
  hj.unique ho (scan_lands target bias (le_trans hj.le hj.le_length))

inductive CursorCall (D : Type) where
  | seek (target : D → Ordering) (bias : Bias)
  | seekForward (target : D → Ordering) (bias : Bias)
  | slice (target : D → Ordering) (bias : Bias)
  | summary (target : D → Ordering) (bias : Bias)
  | next
  | prev

/-- What a call answers, where a slice is a tree or a list. -/
inductive CursorAnswer (X E : Type) where
  | moved
  | found (exact : Bool)
  | sliced (x : X)
  | summed (e : E)

inductive CursorAnswer.Agrees : CursorAnswer (SumTree T S) E → CursorAnswer (List T) E → Prop where
  | moved : Agrees .moved .moved
  | found (exact : Bool) : Agrees (.found exact) (.found exact)
  | sliced {s : SumTree T S} : s.Ok → Agrees (.sliced s) (.sliced s.flat)
  | summed (e : E) : Agrees (.summed e) (.summed e)

def CursorCall.Ordered (l : List T) : CursorCall D → Prop
  | .seek target _ | .seekForward target _ | .slice target _ | .summary target _ => SpkEditor.Ordered l target
  | .next | .prev => True

def TreeCursor.call (c : TreeCursor T S D) : CursorCall D → Option (TreeCursor T S D × CursorAnswer (SumTree T S) E)
  | .seek target bias => (c.seek target bias).map fun r => (r.1, .found r.2)
  | .seekForward target bias => (c.seekForward target bias).map fun r => (r.1, .found r.2)
  | .slice target bias => (c.slice target bias).map fun r => (r.1, .sliced r.2)
  | .summary target bias => (c.summary target bias).map fun r => (r.1, .summed r.2)
  | .next => c.next.map fun c => (c, .moved)
  | .prev => c.prev.map fun c => (c, .moved)

def Place.forward (l : List T) (p : Place) (target : D → Ordering) (bias : Bias) : Option (Nat × Nat) :=
  p.index.bind fun i => if target (cum (l.take i)) = .lt then none else some (i, scan l target bias i)

def Place.call (l : List T) (p : Place) : CursorCall D → Option (Place × CursorAnswer (List T) E)
  | .seek target bias => (Place.fresh.forward l target bias).map fun r => (.at r.2, .found (target (met l bias r.2) = .eq))
  | .seekForward target bias => (p.forward l target bias).map fun r => (.at r.2, .found (target (met l bias r.2) = .eq))
  | .slice target bias => (p.forward l target bias).map fun r => (.at r.2, .sliced ((l.take r.2).drop r.1))
  | .summary target bias => (p.forward l target bias).map fun r => (.at r.2, .summed (cum ((l.take r.2).drop r.1)))
  | .next => some (p.next l.length, .moved)
  | .prev => some (p.prev l.length, .moved)

def TreeCursor.calls (c : TreeCursor T S D) : List (CursorCall D) → Option (TreeCursor T S D × List (CursorAnswer (SumTree T S) E))
  | [] => some (c, [])
  | call :: calls => (c.call call).bind fun r => (TreeCursor.calls r.1 calls).map fun r' => (r'.1, r.2 :: r'.2)

def Place.calls (l : List T) (p : Place) : List (CursorCall D) → Option (Place × List (CursorAnswer (List T) E))
  | [] => some (p, [])
  | call :: calls => (p.call l call).bind fun r => (Place.calls l r.1 calls).map fun r' => (r'.1, r.2 :: r'.2)

omit [Summary S] in
theorem Place.call_ne_lost {l : List T} {p p' : Place} {call : CursorCall D} {answer : CursorAnswer (List T) E}
    (hcall : p.call l call = some (p', answer)) (hp : p ≠ .lost) : p' ≠ .lost := by
  cases call with
  | next =>
    obtain ⟨rfl, _⟩ : p.next l.length = p' ∧ CursorAnswer.moved = answer := by simpa [Place.call] using hcall
    cases p <;> simp [Place.next] at hp ⊢
  | prev =>
    obtain ⟨rfl, _⟩ : p.prev l.length = p' ∧ CursorAnswer.moved = answer := by simpa [Place.call] using hcall
    cases p with
    | «at» i =>
      rcases i with _ | i
      · rw [Place.prev]
        split <;> simp
      · simp [Place.prev]
    | _ => simp [Place.prev] at hp ⊢
  | _ =>
    obtain ⟨r, _, rfl, _⟩ := map_eq_some_pair hcall
    simp

omit [Summary S] in
theorem Place.calls_ne_lost {l : List T} {p p' : Place} {calls : List (CursorCall D)} {answers : List (CursorAnswer (List T) E)}
    (hcalls : p.calls l calls = some (p', answers)) (hp : p ≠ .lost) : p' ≠ .lost := by
  induction calls generalizing p answers with
  | nil =>
    obtain ⟨rfl, _⟩ : p = p' ∧ [] = answers := by simpa [Place.calls] using hcalls
    exact hp
  | cons call calls ih =>
    rw [Place.calls, Option.bind_eq_some_iff] at hcalls
    obtain ⟨r, hcall, hcalls⟩ := hcalls
    obtain ⟨r', hrest, rfl, _⟩ := map_eq_some_pair hcalls
    exact ih hrest (Place.call_ne_lost hcall hp)

/-! ## A cursor answers like a list -/

namespace TreeCursor

variable {t : SumTree T S} {c : TreeCursor T S D} {p : Place}

theorem position_eq (hs : Stands t c p) {i : Nat} (hi : p.index = some i) : c.position = cum (t.flat.take i) := by
  cases p with
  | fresh =>
    obtain rfl : 0 = i := by simpa [Place.index] using hi
    cases hs
    rfl
  | «at» j =>
    obtain rfl : j = i := by simpa [Place.index] using hi
    exact position_at hs
  | before => simp [Place.index] at hi
  | lost => simp [Place.index] at hi

theorem reset_eq (hs : Stands t c p) : c.reset = TreeCursor.new t := by
  cases hs <;> rfl

theorem forward_spec {A : Type} {agg : SeekAggregate T S A} {out : A → List T → Prop} {inLeaf : A → List T → List T → Prop}
    {target : D → Ordering} {bias : Bias} (hm : Measures t target bias) (hg : Gathers agg out inLeaf) (hok : Ok t)
    (hcap : t.height < STACK_CAPACITY) (hs : Stands t c p) (ho : Ordered t.flat target) {a : A} (ha : out a []) {i j : Nat}
    (hforward : p.forward t.flat target bias = some (i, j)) :
    ∃ c' a', c.seekInternal agg target bias a = some (c', a', decide (target (met t.flat bias j) = .eq)) ∧
      Stands t c' (.at j) ∧ out a' ((t.flat.take j).drop i) := by
  rw [Place.forward, Option.bind_eq_some_iff] at hforward
  obtain ⟨i', hi', hforward⟩ := hforward
  split at hforward
  · simp at hforward
  · rename_i hge
    obtain ⟨rfl, rfl⟩ : i' = i ∧ scan t.flat target bias i' = j := by simpa using hforward
    rw [← position_eq hs hi'] at hge
    obtain ⟨c', a', j, hseek, hst, hlands, hout⟩ := seekInternal_spec hm hg hok hcap hs hi' hge ha
    rw [← hlands.eq_scan ho]
    exact ⟨c', a', hseek, hst, hout⟩

variable [LawfulSummary S] [LawfulDimension D S] [LawfulDimension E S]

section

variable (hok : Ok t) (hcap : t.height < STACK_CAPACITY) (hs : Stands t c p)
include hok hcap hs

theorem call_spec {call : CursorCall D}
    (ho : call.Ordered t.flat) {p' : Place} {answer : CursorAnswer (List T) E}
    (hcall : p.call t.flat call = some (p', answer)) :
    ∃ c' answer', c.call call = some (c', answer') ∧ Stands t c' p' ∧ answer'.Agrees answer := by
  cases call with
  | seek target bias =>
    obtain ⟨r, hr, rfl, rfl⟩ := map_eq_some_pair hcall
    obtain ⟨c', a', hseek, hst, -⟩ := forward_spec (measures_of_lawful _ _ _) gathers_nothing hok hcap .fresh ho trivial hr
    refine ⟨c', _, ?_, hst, .found _⟩
    rw [TreeCursor.call, seek, reset_eq hs, hseek]
    rfl
  | seekForward target bias =>
    obtain ⟨r, hr, rfl, rfl⟩ := map_eq_some_pair hcall
    obtain ⟨c', a', hseek, hst, -⟩ := forward_spec (measures_of_lawful _ _ _) gathers_nothing hok hcap hs ho trivial hr
    refine ⟨c', _, ?_, hst, .found _⟩
    rw [TreeCursor.call, seekForward, hseek]
    rfl
  | slice target bias =>
    obtain ⟨r, hr, rfl, rfl⟩ := map_eq_some_pair hcall
    obtain ⟨c', a', hseek, hst, hslice⟩ := forward_spec (measures_of_lawful _ _ _) gathers_slice
      (a := ⟨SumTree.new, [], [], Summary.zero⟩) hok hcap hs ho
      (.mk (.inl rfl) (Nat.zero_le _)) hr
    generalize (t.flat.take r.2).drop r.1 = passed at hslice ⊢
    cases hslice with
    | mk hsok _ =>
      refine ⟨c', _, ?_, hst, .sliced hsok⟩
      rw [TreeCursor.call, slice, hseek]
      rfl
  | summary target bias =>
    obtain ⟨r, hr, rfl, rfl⟩ := map_eq_some_pair hcall
    obtain ⟨c', a', hseek, hst, rfl⟩ := forward_spec (measures_of_lawful _ _ _) (gathers_summary (E := E))
      (a := Dimension.zero S) hok hcap hs ho rfl hr
    refine ⟨c', _, ?_, hst, .summed _⟩
    rw [TreeCursor.call, summary, hseek]
    rfl
  | next =>
    obtain ⟨rfl, rfl⟩ : p.next t.flat.length = p' ∧ CursorAnswer.moved = answer := by simpa [Place.call] using hcall
    obtain ⟨c', hnext, hst⟩ := next_spec hok hcap hs
    exact ⟨c', .moved, by rw [TreeCursor.call, hnext]; rfl, hst, .moved⟩
  | prev =>
    obtain ⟨rfl, rfl⟩ : p.prev t.flat.length = p' ∧ CursorAnswer.moved = answer := by simpa [Place.call] using hcall
    obtain ⟨c', hprev, hst⟩ := prev_spec hok hcap hs
    exact ⟨c', .moved, by rw [TreeCursor.call, hprev]; rfl, hst, .moved⟩

theorem calls_spec {calls : List (CursorCall D)}
    (ho : ∀ call ∈ calls, call.Ordered t.flat) {p' : Place} {answers : List (CursorAnswer (List T) E)}
    (hcalls : p.calls t.flat calls = some (p', answers)) :
    ∃ c' answers', c.calls calls = some (c', answers') ∧ Stands t c' p' ∧ List.Forall₂ CursorAnswer.Agrees answers' answers := by
  induction calls generalizing c p answers with
  | nil =>
    obtain ⟨rfl, rfl⟩ : p = p' ∧ [] = answers := by simpa [Place.calls] using hcalls
    exact ⟨c, [], rfl, hs, .nil⟩
  | cons call calls ih =>
    rw [Place.calls, Option.bind_eq_some_iff] at hcalls
    obtain ⟨⟨p₁, answer⟩, hcall, hcalls⟩ := hcalls
    obtain ⟨⟨p₂, answers₁⟩, hrest, rfl, rfl⟩ := map_eq_some_pair hcalls
    obtain ⟨c₁, answer', hc₁, hs₁, hanswer⟩ := call_spec hok hcap hs (ho call mem_cons_self) hcall
    obtain ⟨c', answers', hc', hs', hanswers⟩ := ih hs₁ (fun d hd => ho d (mem_cons_of_mem _ hd)) hrest
    refine ⟨c', answer' :: answers', ?_, hs', .cons hanswer hanswers⟩
    rw [TreeCursor.calls, hc₁, Option.bind_some, hc']
    rfl

end

end TreeCursor

end SpkEditor
