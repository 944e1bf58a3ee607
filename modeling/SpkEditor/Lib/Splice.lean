import Mathlib.Algebra.Order.Ring.Nat
import Mathlib.Data.List.TakeWhile
import Mathlib.Data.List.Nodup

/-!
# Splicing edits into a replicated sequence

A sequence that several parties extend concurrently. An edit was made by a party
that had *seen* only some of the elements, so its positions count seen elements
and pass over the others; where it inserts, it also passes over elements with a
larger timestamp, which is how two parties inserting at one place agree on an
order.

`splice` is that operation. `Ordered` is the invariant: going left from an
element, one meets something its author had seen before one meets anything
older. It survives `splice` (`ordered_splice`), it survives dropping elements
nobody depends on (`Ordered.filter`), and together with the positions of the
inserted elements (`marks`) it pins the result down: `splice_unique` says that
splicing an edit into a sequence without it gives the sequence with it, whatever
else is there.
-/

namespace SpkEditor.Splice

open List

variable {α β : Type}

variable {above isT seen : α → Bool} {l : List α} {pos : Nat} {hit : α → α}

/-! ## Counting past what was not seen -/

/-- The shortest prefix of a list holding `n` elements that were seen, and the rest. -/
def takeSeen (seen : α → Bool) : Nat → List α → List α × List α
  | 0, l => ([], l)
  | _ + 1, [] => ([], [])
  | n + 1, a :: l =>
    let r := takeSeen seen (if seen a then n else n + 1) l
    (a :: r.1, r.2)

def EndsSeen (seen : α → Bool) (l : List α) : Prop := ∀ a, l.getLast? = some a → seen a = true

@[simp] theorem takeSeen_zero (seen : α → Bool) (l : List α) : takeSeen seen 0 l = ([], l) := by
  cases l <;> rfl

theorem takeSeen_append (seen : α → Bool) (n : Nat) (l : List α) :
    (takeSeen seen n l).1 ++ (takeSeen seen n l).2 = l := by
  induction l generalizing n with
  | nil => cases n <;> rfl
  | cons a l ih =>
    cases n with
    | zero => rfl
    | succ n => simp only [takeSeen, cons_append, ih]

/-- **The split is determined by its count and its last element.** -/
theorem takeSeen_eq {n : Nat} {A B : List α} (hl : l = A ++ B)
    (hn : A.countP seen = n) (he : EndsSeen seen A) : takeSeen seen n l = (A, B) := by
  subst hl
  induction A generalizing n with
  | nil => simp only [countP_nil] at hn; subst hn; simp
  | cons a A ih =>
    have hA : EndsSeen seen A := by
      intro x hx
      refine he x ?_
      cases A with
      | nil => simp at hx
      | cons b A => simpa using hx
    cases n with
    | zero =>
      exfalso
      -- nothing is counted, yet the last element was seen
      obtain ⟨x, hx⟩ : ∃ x, (a :: A).getLast? = some x := by
        rw [getLast?_eq_some_getLast (by simp)]; exact ⟨_, rfl⟩
      have hxs := he x hx
      have hmem : x ∈ a :: A := mem_of_getLast? hx
      have := List.countP_eq_zero.mp hn x hmem
      exact this hxs
    | succ n =>
      simp only [cons_append, takeSeen]
      cases hs : seen a with
      | true =>
        rw [countP_cons_of_pos hs] at hn
        rw [if_pos rfl, ih (by omega) hA]
      | false =>
        rw [countP_cons_of_neg (by simp [hs])] at hn
        rw [if_neg (by simp), ih hn hA]

theorem takeSeen_count {n : Nat} (h : n ≤ l.countP seen) :
    (takeSeen seen n l).1.countP seen = n ∧ EndsSeen seen (takeSeen seen n l).1 := by
  induction l generalizing n with
  | nil =>
    simp only [countP_nil, Nat.le_zero] at h
    subst h
    exact ⟨rfl, by intro a ha; simp at ha⟩
  | cons a l ih =>
    cases n with
    | zero => exact ⟨rfl, by intro a ha; simp at ha⟩
    | succ n =>
      simp only [takeSeen]
      cases hs : seen a with
      | true =>
        rw [countP_cons_of_pos hs] at h
        obtain ⟨h1, h2⟩ := ih (n := n) (by omega)
        refine ⟨by rw [countP_cons_of_pos hs]; simp [h1], ?_⟩
        intro x hx
        cases hr : (takeSeen seen n l).1 with
        | nil => simp [hr] at hx; exact hx ▸ hs
        | cons b r => exact h2 x (by rw [hr]; simpa [hr] using hx)
      | false =>
        rw [countP_cons_of_neg (by simp [hs])] at h
        obtain ⟨h1, h2⟩ := ih (n := n + 1) (by omega)
        refine ⟨by rw [countP_cons_of_neg (by simp [hs])]; simpa using h1, ?_⟩
        intro x hx
        cases hr : (takeSeen seen (n + 1) l).1 with
        | nil => rw [hr] at h1; simp at h1
        | cons b r => exact h2 x (by rw [hr]; simpa [hr] using hx)

theorem takeSeen_map {f : α → β} {seen' : β → Bool}
    (h : ∀ a, seen' (f a) = seen a) (n : Nat) (l : List α) :
    takeSeen seen' n (l.map f) = ((takeSeen seen n l).1.map f, (takeSeen seen n l).2.map f) := by
  induction l generalizing n with
  | nil => cases n <;> rfl
  | cons a l ih =>
    cases n with
    | zero => rfl
    | succ n => simp only [map_cons, takeSeen, h, ih]

/-! ## Splicing -/

/-- One replacement: the seen elements from `start` up to `stop` are hit, and `text`
goes in front of them. -/
structure Edit (α : Type) where
  start : Nat
  stop : Nat
  text : List α

/-- Edits in order and without overlap, between the positions `pos` and `limit`. -/
def Valid : Nat → List (Edit α) → Nat → Prop
  | pos, [], limit => pos ≤ limit
  | pos, e :: es, limit => pos ≤ e.start ∧ e.start ≤ e.stop ∧ Valid e.stop es limit

/--
Run a list of edits over a sequence whose first element is at position `pos`.
`seen` are the elements positions are counted in, `above` the ones an insertion
passes over, and `hit` what happens to the elements inside an edit's range.
-/
def splice (seen above : α → Bool) (hit : α → α) : Nat → List (Edit α) → List α → List α
  | _, [], l => l
  | pos, e :: es, l =>
    let gap := takeSeen seen (e.start - pos) l
    let rest := gap.2.dropWhile above
    let inside := takeSeen seen (e.stop - e.start) rest
    gap.1 ++ gap.2.takeWhile above ++ e.text ++ inside.1.map hit ++
      splice seen above hit e.stop es inside.2

theorem Valid.le {limit : Nat} {es : List (Edit α)} (h : Valid pos es limit) : pos ≤ limit := by
  induction es generalizing pos with
  | nil => exact h
  | cons e es ih =>
    obtain ⟨h1, h2, h3⟩ := h
    have := ih h3
    omega

/-- Splicing commutes with a relabelling that respects what it looks at. -/
theorem splice_map {f : α → β} {seen' above' : β → Bool} {hit' : β → β} (hs : ∀ a, seen' (f a) = seen a)
    (ha : ∀ a, above' (f a) = above a) (hh : ∀ a, f (hit a) = hit' (f a)) :
    ∀ (es : List (Edit α)) (pos : Nat) (l : List α), (splice seen above hit pos es l).map f =
        splice seen' above' hit' pos (es.map (fun e => ⟨e.start, e.stop, e.text.map f⟩)) (l.map f)
  | [], _, _ => rfl
  | e :: es, pos, l => by
      have hmap : ∀ m : List α, (m.map hit).map f = (m.map f).map hit' := by
        intro m; simp [hh]
      have htw : ∀ m : List α, (m.map f).takeWhile above' = (m.takeWhile above).map f := by
        intro m; rw [takeWhile_map]; congr 2; funext a; exact ha a
      have hdw : ∀ m : List α, (m.map f).dropWhile above' = (m.dropWhile above).map f := by
        intro m; rw [dropWhile_map]; congr 2; funext a; exact ha a
      simp only [splice, map_append, map_cons, takeSeen_map hs, htw, hdw,
        splice_map hs ha hh es, hmap]

/-- The four stretches one edit cuts a sequence into: before it, passed over, inside
its range, and after it. -/
structure Cut (seen above : α → Bool) (pos : Nat) (e : Edit α) (l A C E F : List α) : Prop where
  whole : l = A ++ (C ++ (E ++ F))
  gap : takeSeen seen (e.start - pos) l = (A, C ++ (E ++ F))
  passed : (C ++ (E ++ F)).takeWhile above = C
  rest : (C ++ (E ++ F)).dropWhile above = E ++ F
  inside : takeSeen seen (e.stop - e.start) (E ++ F) = (E, F)

theorem exists_cut (seen above : α → Bool) (pos : Nat) (e : Edit α) (l : List α) :
    ∃ A C E F, Cut seen above pos e l A C E F := by
  cases hg : takeSeen seen (e.start - pos) l with
  | mk A B =>
    cases hi : takeSeen seen (e.stop - e.start) (B.dropWhile above) with
    | mk E F =>
      have h1 := takeSeen_append seen (e.start - pos) l
      have h2 := takeWhile_append_dropWhile (p := above) (l := B)
      have h3 := takeSeen_append seen (e.stop - e.start) (B.dropWhile above)
      rw [hg] at h1
      rw [hi] at h3
      refine ⟨A, B.takeWhile above, E, F, ?_, ?_, ?_, ?_, ?_⟩
      · rw [h3, h2, h1]
      · rw [h3, h2, hg]
      · rw [h3, h2]
      · rw [h3, h2]
      · rw [h3, hi]

theorem Cut.splice_eq {e : Edit α}
    {es : List (Edit α)} {A C E F : List α} (h : Cut seen above pos e l A C E F) :
    splice seen above hit pos (e :: es) l =
      A ++ (C ++ (e.text ++ (E.map hit ++ splice seen above hit e.stop es F))) := by
  simp only [splice, h.gap, h.passed, h.rest, h.inside, append_assoc]

theorem takeSeen_congr {seen' : α → Bool} :
    ∀ (l : List α) (n : Nat), (∀ a ∈ l, seen a = seen' a) → takeSeen seen n l = takeSeen seen' n l
  | [], n, _ => by cases n <;> rfl
  | a :: l, 0, _ => rfl
  | a :: l, n + 1, h => by
      simp only [takeSeen, h a (mem_cons_self ..)]
      rw [takeSeen_congr l _ (fun b hb => h b (mem_cons_of_mem _ hb))]

theorem splice_congr {seen' above' : α → Bool} {hit' : α → α} :
    ∀ (es : List (Edit α)) (pos : Nat) (l : List α), (∀ a ∈ l, seen a = seen' a) →
      (∀ a ∈ l, above a = above' a) → (∀ a ∈ l, hit a = hit' a) →
      splice seen above hit pos es l = splice seen' above' hit' pos es l
  | [], _, _, _, _, _ => rfl
  | e :: es, pos, l, hs, ha, hh => by
      obtain ⟨A, C, E, F, hc⟩ := exists_cut seen above pos e l
      have hsub : ∀ a, a ∈ C ++ (E ++ F) → a ∈ l := fun a h => by
        rw [hc.whole]; exact mem_append_right _ h
      have hE : ∀ a, a ∈ E ++ F → a ∈ l := fun a h => hsub a (mem_append_right _ h)
      have htw : ∀ m : List α, (∀ a ∈ m, above a = above' a) →
          m.takeWhile above = m.takeWhile above' ∧ m.dropWhile above = m.dropWhile above' := by
        intro m hm
        induction m with
        | nil => exact ⟨rfl, rfl⟩
        | cons a m ih =>
          obtain ⟨h1, h2⟩ := ih (fun b hb => hm b (mem_cons_of_mem _ hb))
          simp only [takeWhile_cons, dropWhile_cons, hm a (mem_cons_self ..)]
          cases above' a <;> simp [h1, h2]
      have hcut : Cut seen' above' pos e l A C E F := by
        refine ⟨hc.whole, ?_, ?_, ?_, ?_⟩
        · rw [← takeSeen_congr l _ hs, hc.gap]
        · rw [← (htw _ (fun a h => ha a (hsub a h))).1, hc.passed]
        · rw [← (htw _ (fun a h => ha a (hsub a h))).2, hc.rest]
        · rw [← takeSeen_congr _ _ (fun a h => hs a (hE a h)), hc.inside]
      have hF : ∀ a ∈ F, a ∈ l := fun a h => hE a (mem_append_right _ h)
      rw [hc.splice_eq, hcut.splice_eq, splice_congr es e.stop F (fun a h => hs a (hF a h))
        (fun a h => ha a (hF a h)) (fun a h => hh a (hF a h)),
        map_congr_left (fun a h => hh a (hE a (mem_append_left _ h)))]

/-- Elements outside what a filter keeps can be spliced in without it noticing. -/
theorem filter_splice {keep : α → Bool} : ∀ (es : List (Edit α)) (pos : Nat) (l : List α),
      (∀ e ∈ es, ∀ x ∈ e.text, keep x = false) →
      (splice seen above id pos es l).filter keep = l.filter keep
  | [], _, _, _ => rfl
  | e :: es, pos, l, h => by
      obtain ⟨A, C, E, F, hc⟩ := exists_cut seen above pos e l
      have htext : e.text.filter keep = [] := by
        rw [filter_eq_nil_iff]
        intro x hx
        simp [h e (mem_cons_self ..) x hx]
      have ih : (splice seen above id e.stop es F).filter keep = _ := filter_splice es e.stop F
        (fun e' he' => h e' (mem_cons_of_mem _ he'))
      rw [hc.splice_eq, hc.whole]
      simp only [map_id, filter_append, htext, ih, nil_append]

theorem filter_splice_text : ∀ (es : List (Edit α)) (pos : Nat) (l : List α),
      (∀ e ∈ es, ∀ x ∈ e.text, isT x = true) → (∀ a ∈ l, isT a = false) →
      (splice seen above id pos es l).filter isT = es.flatMap Edit.text
  | [], _, l, _, hl => by
      rw [splice, flatMap_nil, filter_eq_nil_iff]
      intro a ha
      simp [hl a ha]
  | e :: es, pos, l, ht, hl => by
      obtain ⟨A, C, E, F, hc⟩ := exists_cut seen above pos e l
      have hnone : ∀ m : List α, (∀ a ∈ m, a ∈ l) → m.filter isT = [] := by
        intro m hm
        rw [filter_eq_nil_iff]
        intro a ha
        simp [hl a (hm a ha)]
      have htext : e.text.filter isT = e.text :=
        List.filter_eq_self.mpr (ht e (mem_cons_self ..))
      have ih : (splice seen above id e.stop es F).filter isT = _ :=
        filter_splice_text es e.stop F (fun e' he' => ht e' (mem_cons_of_mem _ he'))
          (fun a ha => hl a (by rw [hc.whole]; simp [ha]))
      rw [hc.splice_eq, map_id, filter_append, filter_append, filter_append,
        filter_append, htext, ih, hnone A (fun a ha => by rw [hc.whole]; simp [ha]),
        hnone C (fun a ha => by rw [hc.whole]; simp [ha]),
        hnone E (fun a ha => by rw [hc.whole]; simp [ha]), flatMap_cons]
      simp

theorem splice_perm : ∀ (es : List (Edit α)) (pos : Nat) (l : List α),
      (splice seen above id pos es l).Perm (es.flatMap Edit.text ++ l)
  | [], _, _ => by simp [splice]
  | e :: es, pos, l => by
      obtain ⟨A, C, E, F, hc⟩ := exists_cut seen above pos e l
      have ih : (splice seen above id e.stop es F).Perm _ := splice_perm es e.stop F
      rw [hc.splice_eq, hc.whole, flatMap_cons, map_id]
      calc A ++ (C ++ (e.text ++ (E ++ splice seen above id e.stop es F)))
          _ = (A ++ C) ++ (e.text ++ (E ++ splice seen above id e.stop es F)) := by simp
          Perm _ ((A ++ C) ++ (e.text ++ (E ++ (es.flatMap Edit.text ++ F)))) :=
              ((ih.append_left E).append_left e.text).append_left _
          Perm _ ((e.text ++ (E ++ (es.flatMap Edit.text ++ F))) ++ (A ++ C)) :=
              perm_append_comm
          _ = e.text ++ (E ++ (es.flatMap Edit.text ++ (F ++ (A ++ C)))) := by simp
          Perm _ (e.text ++ (es.flatMap Edit.text ++ (F ++ (A ++ C)) ++ E)) :=
              List.perm_append_comm.append_left _
          _ = (e.text ++ es.flatMap Edit.text) ++ (F ++ ((A ++ C) ++ E)) := by simp
          Perm _ ((e.text ++ es.flatMap Edit.text) ++ (((A ++ C) ++ E) ++ F)) :=
              List.perm_append_comm.append_left _
          _ = e.text ++ es.flatMap Edit.text ++ (A ++ (C ++ (E ++ F))) := by simp

theorem mem_splice {x : α} {es : List (Edit α)} :
    x ∈ splice seen above id pos es l ↔ x ∈ es.flatMap Edit.text ∨ x ∈ l := by
  rw [(splice_perm es pos l).mem_iff, mem_append]

/-! ## The ordering invariant -/

section Ordered

variable {τ : Type} [LinearOrder τ] (ts : α → τ) (saw : τ → τ → Prop)

/-- `Covered`, carried along a list from the left: `c` says whether what came
before was covered. -/
def cov (t : τ) : Prop → List α → Prop
  | c, [] => c
  | c, a :: l => cov t (saw t (ts a) ∨ (t ≤ ts a ∧ c)) l

/-- Going left from the end of `l`, an element the author of `t` had seen comes
before anything older than `t`. -/
def Covered (t : τ) (l : List α) : Prop := cov ts saw t True l

/-- **The ordering invariant**: every element is covered by what stands before it. -/
def Ordered (l : List α) : Prop :=
  ∀ P w Q, l = P ++ w :: Q → Covered ts saw (ts w) P

variable {ts saw}

theorem cov_append (t : τ) : ∀ (l m : List α) (c : Prop),
    cov ts saw t c (l ++ m) = cov ts saw t (cov ts saw t c l) m
  | [], _, _ => rfl
  | a :: l, m, c => by simp only [cons_append, cov]; exact cov_append t l m _

theorem cov_mono (t : τ) : ∀ (l : List α) {c d : Prop}, (c → d) → cov ts saw t c l →
    cov ts saw t d l
  | [], _, _, h, hc => h hc
  | _ :: l, _, _, h, hc =>
    cov_mono t l (fun hx => hx.imp id (And.imp_right h)) hc

theorem cov_of_forall_le {t : τ} : ∀ {l : List α} {c : Prop}, (∀ a ∈ l, t ≤ ts a) → c →
    cov ts saw t c l
  | [], _, _, hc => hc
  | a :: l, _, h, hc =>
    cov_of_forall_le (l := l) (fun b hb => h b (mem_cons_of_mem _ hb))
      (.inr ⟨h a (mem_cons_self ..), hc⟩)

theorem cov_of_endsSeen {t : τ} (hs : ∀ a, seen a = true → saw t (ts a)) {c : Prop}
    (he : EndsSeen seen l) (hc : l = [] → c) : cov ts saw t c l := by
  rcases eq_nil_or_concat l with rfl | ⟨m, a, rfl⟩
  · exact hc rfl
  · rw [concat_eq_append, cov_append]
    exact .inl (hs a (he a (by simp)))

theorem le_of_cov {t : τ} : ∀ {l : List α} {c : Prop}, cov ts saw t c l →
    (∀ a ∈ l, ¬ saw t (ts a)) → c ∧ ∀ a ∈ l, t ≤ ts a
  | [], _, h, _ => ⟨h, by simp⟩
  | a :: l, c, h, hn => by
      obtain ⟨h1, h2⟩ := le_of_cov (l := l) h (fun b hb => hn b (mem_cons_of_mem _ hb))
      rcases h1 with h1 | ⟨h1, h1'⟩
      · exact absurd h1 (hn a (mem_cons_self ..))
      · refine ⟨h1', fun b hb => ?_⟩
        rcases List.mem_cons.mp hb with rfl | hb
        · exact h1
        · exact h2 b hb

theorem Ordered.of_append {m : List α} (h : Ordered ts saw (l ++ m)) : Ordered ts saw m := by
  intro P w Q hm
  have := h (l ++ P) w Q (by rw [hm, append_assoc])
  unfold Covered at this
  rw [cov_append] at this
  exact cov_mono _ P (fun _ => trivial) this

theorem cov_filter {t : τ} {keep : α → Bool} (hk : ∀ a, keep a = false → ¬ saw t (ts a)) :
    ∀ {l : List α} {c d : Prop}, (c → d) → cov ts saw t c l → cov ts saw t d (l.filter keep)
  | [], _, _, h, hc => h hc
  | a :: l, c, d, h, hc => by
      cases hka : keep a with
      | true =>
        rw [filter_cons_of_pos hka]
        exact cov_filter hk (fun hx => hx.imp id (And.imp_right h)) hc
      | false =>
        rw [filter_cons_of_neg (by simp [hka])]
        refine cov_filter hk ?_ hc
        rintro (hx | ⟨_, hx⟩)
        · exact absurd hx (hk a hka)
        · exact h hx

theorem cov_saw {saw' : τ → τ → Prop} {t : τ} (h : ∀ u, saw t u → saw' t u) :
    ∀ {l : List α} {c d : Prop}, (c → d) → cov ts saw t c l → cov ts saw' t d l
  | [], _, _, hcd, hc => hcd hc
  | _ :: l, _, _, hcd, hc =>
    cov_saw h (l := l) (fun hx => hx.imp (h _) (And.imp_right hcd)) hc

theorem Ordered.mono {saw' : τ → τ → Prop} (h : Ordered ts saw l)
    (hs : ∀ t u, saw t u → saw' t u) : Ordered ts saw' l :=
  fun P w Q hl => cov_saw (hs _) (fun hc => hc) (h P w Q hl)

/-- Dropping elements that nothing kept had seen keeps the invariant. -/
theorem Ordered.filter {keep : α → Bool} (h : Ordered ts saw l)
    (hk : ∀ w ∈ l, keep w = true → ∀ a, keep a = false → ¬ saw (ts w) (ts a)) :
    Ordered ts saw (l.filter keep) := by
  intro P w Q hl
  obtain ⟨l₁, l₂, rfl, hP, h₂⟩ := List.filter_eq_append_iff.mp hl
  obtain ⟨m₁, m₂, rfl, hm₁, hw, -⟩ := List.filter_eq_cons_iff.mp h₂
  have hcov := h (l₁ ++ m₁) w m₂ (by simp)
  have hm : m₁.filter keep = [] := by
    rw [filter_eq_nil_iff]; intro a ha; simpa using hm₁ a ha
  have := cov_filter (hk w (by simp) hw) (fun h => h) hcov
  rwa [filter_append, hP, hm, append_nil] at this

/-- **One block, inserted where the invariant wants it.** The block's author must be
covered by what is on its left, and what is on its right must be older. -/
theorem Ordered.insert {t : τ} {P text Q : List α} (h : Ordered ts saw (P ++ Q))
    (ht : ∀ x ∈ text, ts x = t) (hP : Covered ts saw t P)
    (hQ : ∀ q, Q.head? = some q → ts q < t) : Ordered ts saw (P ++ (text ++ Q)) := by
  intro P' w Q' hl
  rcases List.append_eq_append_iff.mp hl with ⟨R, hP', hR⟩ | ⟨R, hP', hR⟩
  · rcases List.append_eq_append_iff.mp hR with ⟨S, hS, hQS⟩ | ⟨S, hS, hQS⟩
    · -- `w` is one of the elements on the right
      have hcov := h (P ++ S) w Q' (by rw [hQS, append_assoc])
      rw [hP', hS]
      unfold Covered at hcov ⊢
      rw [cov_append] at hcov
      rw [cov_append, cov_append]
      rcases le_or_gt (ts w) t with hle | hlt
      · exact cov_mono _ S (fun hc => cov_of_forall_le (fun x hx => by rw [ht x hx]; exact hle) hc)
          hcov
      · -- the first element on the right is older than `w`, so the block is out of reach
        cases S with
        | nil => exact absurd (hQ w (by rw [hQS]; rfl)) (not_lt.mpr (le_of_lt hlt))
        | cons s S =>
          have hs : ts s < ts w := lt_trans (hQ s (by rw [hQS]; rfl)) hlt
          refine cov_mono _ S ?_ hcov
          rintro (hx | ⟨hx, _⟩)
          · exact .inl hx
          · exact absurd hs (not_lt.mpr hx)
    · cases S with
      | nil =>
        -- `w` is the first element on the right
        simp only [nil_append] at hQS
        simp only [append_nil] at hS
        have hcov := h P w Q' (by rw [hQS])
        rw [hP', ← hS]
        unfold Covered at hcov ⊢
        rw [cov_append]
        refine cov_of_forall_le (fun x hx => ?_) hcov
        rw [ht x hx]; exact le_of_lt (hQ w (by rw [← hQS]; rfl))
      | cons s S =>
        obtain ⟨rfl, rfl⟩ := List.cons.inj hQS
        -- `w` is one of the inserted elements
        have hw : ts w = t := ht w (by rw [hS]; simp)
        rw [hP', hw]
        unfold Covered at hP ⊢
        rw [cov_append]
        exact cov_of_forall_le (fun x hx => le_of_eq (ht x (by rw [hS]; simp [hx])).symm) hP
  · cases R with
    | nil =>
      simp only [append_nil] at hP'
      cases text with
      | nil =>
        simp only [nil_append] at hR
        exact h P' w Q' (by rw [hP', hR])
      | cons x text =>
        obtain ⟨rfl, rfl⟩ := List.cons.inj hR
        rw [ht w (by simp), ← hP']; exact hP
    | cons r R =>
      obtain ⟨rfl, rfl⟩ := List.cons.inj hR
      exact h P' w (R ++ Q) (by rw [hP']; simp)

/-! ## Splicing keeps the invariant -/

section

variable {e : Edit α} {A C E F : List α} (h : Cut seen above pos e l A C E F)
include h

theorem Cut.above_passed : ∀ a ∈ C, above a = true := by
  intro a haC
  exact mem_takeWhile_imp (p := above) (l := C ++ (E ++ F)) (by rw [h.passed]; exact haC)

/-- What follows the stretch passed over does not start with something to pass over. -/
theorem Cut.not_above_head : ∀ q, (E ++ F).head? = some q → above q = false := by
  intro q hq
  have := head?_dropWhile_not above (C ++ (E ++ F))
  rw [h.rest, hq] at this
  simpa using this

/-- **Counting the seen elements of a cut**, when the edit fits. -/
theorem Cut.counts (hab : ∀ a, above a = true → seen a = false)
    (h1 : pos ≤ e.start) (h2 : e.start ≤ e.stop) (h3 : e.stop ≤ pos + l.countP seen) :
    A.countP seen = e.start - pos ∧ EndsSeen seen A ∧ C.countP seen = 0 ∧
      E.countP seen = e.stop - e.start ∧ EndsSeen seen E ∧
      pos + l.countP seen = e.stop + F.countP seen := by
  obtain ⟨hA, hAs⟩ := takeSeen_count (show e.start - pos ≤ l.countP seen by omega)
  rw [h.gap] at hA hAs
  dsimp only at hA hAs
  have hC : C.countP seen = 0 := by
    rw [countP_eq_zero]
    intro a ha
    simp [hab a (h.above_passed a ha)]
  have hwhole := congrArg (List.countP seen) h.whole
  simp only [countP_append] at hwhole
  obtain ⟨hE, hEs⟩ := takeSeen_count
    (show e.stop - e.start ≤ (E ++ F).countP seen by rw [countP_append]; omega)
  rw [h.inside] at hE hEs
  dsimp only at hE hEs
  exact ⟨hA, hAs, hC, hE, hEs, by omega⟩

end

/--
**`splice` keeps the invariant.** `out` is what has already been produced; the
induction is on the edits, and what it carries is that `out` covers the edit's own
timestamp, so that the next block may be inserted after it.
-/
theorem ordered_splice {t : τ}
    (hs : ∀ a, seen a = true → saw t (ts a)) (ha : ∀ a, above a = true ↔ t < ts a)
    (hab : ∀ a, above a = true → seen a = false) :
    ∀ (es : List (Edit α)) (pos : Nat) (out l : List α), Valid pos es (pos + l.countP seen) →
      (∀ e ∈ es, ∀ x ∈ e.text, ts x = t) → (∀ a ∈ l, ts a ≠ t) →
      Covered ts saw t out → Ordered ts saw (out ++ l) →
      Ordered ts saw (out ++ splice seen above id pos es l)
  | [], _, _, _, _, _, _, _, ho => ho
  | e :: es, pos, out, l, hv, ht, hl, hc, ho => by
      obtain ⟨A, C, E, F, hcut⟩ := exists_cut seen above pos e l
      obtain ⟨hv1, hv2, hv3⟩ := hv
      obtain ⟨-, hAs, -, -, hEs, hF⟩ := hcut.counts hab hv1 hv2 hv3.le
      have htext : ∀ x ∈ e.text, ts x = t := ht e (mem_cons_self ..)
      -- everything up to the insertion point covers the block
      have hcov : Covered ts saw t (out ++ (A ++ C)) := by
        unfold Covered
        rw [cov_append, cov_append]
        refine cov_of_forall_le (fun a haC => le_of_lt ((ha a).mp (hcut.above_passed a haC))) ?_
        exact cov_of_endsSeen hs hAs (fun _ => hc)
      have hhead : ∀ q, (E ++ F).head? = some q → ts q < t := by
        intro q hq
        have hqm : q ∈ l := by
          rw [hcut.whole]
          have := mem_of_mem_head? hq
          simp only [mem_append] at this ⊢
          tauto
        have hna := hcut.not_above_head q hq
        rcases lt_trichotomy (ts q) t with h | h | h
        · exact h
        · exact absurd h (hl q hqm)
        · rw [(ha q).mpr h] at hna; exact absurd hna (by simp)
      have hins : Ordered ts saw ((out ++ (A ++ C)) ++ (e.text ++ (E ++ F))) := by
        refine Ordered.insert ?_ htext hcov hhead
        rw [hcut.whole] at ho
        simpa [append_assoc] using ho
      -- and so does everything up to the end of the edit's range
      have hcov' : Covered ts saw t (out ++ (A ++ C) ++ (e.text ++ E)) := by
        unfold Covered at hcov ⊢
        rw [cov_append, cov_append]
        refine cov_of_endsSeen hs hEs (fun _ => ?_)
        exact cov_of_forall_le (fun x hx => le_of_eq (htext x hx).symm) hcov
      have := ordered_splice hs ha hab es e.stop (out ++ (A ++ C) ++ (e.text ++ E)) F
        (by rw [← hF]; exact hv3) (fun e' he' => ht e' (mem_cons_of_mem _ he'))
        (fun a haF => hl a (by rw [hcut.whole]; simp [haF])) hcov'
        (by simpa [append_assoc] using hins)
      rw [hcut.splice_eq]
      simpa [append_assoc] using this

section

variable {p : α → Bool} (h : ∀ q, l.head? = some q → p q = false)
include h

theorem takeWhile_eq_nil_of_head : l.takeWhile p = [] := by
  cases l with
  | nil => rfl
  | cons a l => rw [takeWhile_cons_of_neg (by simp [h a rfl])]

theorem dropWhile_eq_self_of_head : l.dropWhile p = l := by
  cases l with
  | nil => rfl
  | cons a l => rw [dropWhile_cons_of_neg (by simp [h a rfl])]

end

/-! ## An edit is determined by the sequence that holds it -/

theorem Valid.mono_left {pos' limit : Nat} {es : List (Edit α)} (h : Valid pos es limit)
    (hp : pos' ≤ pos) : Valid pos' es limit := by
  cases es with
  | nil => exact le_trans hp h
  | cons e es => exact ⟨le_trans hp h.1, h.2⟩

theorem endsSeen_append {m : List α} (hl : EndsSeen seen l)
    (hm : EndsSeen seen m) : EndsSeen seen (l ++ m) := by
  intro a ha
  cases m with
  | nil => exact hl a (by simpa using ha)
  | cons b m => exact hm a (by simpa using ha)

theorem endsSeen_append_right {m : List α} (hm : EndsSeen seen m)
    (hne : m ≠ []) : EndsSeen seen (l ++ m) := by
  intro a ha
  cases m with
  | nil => exact absurd rfl hne
  | cons b m => exact hm a (by simpa using ha)

/-- An edit that inserts nothing and changes nothing may be left out. -/
theorem splice_nil_text (hab : ∀ a, above a = true → seen a = false) {e : Edit α}
    {es : List (Edit α)} (he : e.text = [])
    (hv : Valid pos (e :: es) (pos + l.countP seen)) :
    splice seen above id pos (e :: es) l = splice seen above id pos es l := by
  obtain ⟨A, C, E, F, hcut⟩ := exists_cut seen above pos e l
  obtain ⟨hv1, hv2, hv3⟩ := hv
  obtain ⟨hA, hAs, hC, hE, hEs, hF⟩ := hcut.counts hab hv1 hv2 hv3.le
  rw [hcut.splice_eq, he]
  cases es with
  | nil => simp [splice, hcut.whole]
  | cons e' es =>
    obtain ⟨A', C', E', F', hcut'⟩ := exists_cut seen above e.stop e' F
    obtain ⟨hw1, hw2, hw3⟩ := hv3
    rw [hF] at hw3
    obtain ⟨hA', hAs', -, -, -, -⟩ := hcut'.counts hab hw1 hw2 hw3.le
    rw [hcut'.splice_eq]
    by_cases hnil : E ++ A' = []
    · -- the two edits meet: the second one passes over what the first one passed
      obtain ⟨rfl, rfl⟩ := List.append_eq_nil_iff.mp hnil
      simp only [countP_nil] at hE hA'
      have hC' : C' = [] := by
        cases hCc : C' with
        | nil => rfl
        | cons c C'' =>
          have h1 := hcut'.above_passed c (by simp [hCc])
          have h2 := hcut.not_above_head c (by simp [hcut'.whole, hCc])
          rw [h1] at h2
          cases h2
      subst hC'
      have hnew : Cut seen above pos e' l A C E' F' := by
        have hFw := hcut'.whole
        refine ⟨by rw [hcut.whole, hFw]; simp, ?_, ?_, ?_, hcut'.inside⟩
        · have := hcut.gap
          rw [show e'.start - pos = e.start - pos by omega, this, hFw]
          simp
        · have := hcut.passed; simpa [hFw] using this
        · have := hcut.rest; simpa [hFw] using this
      rw [hnew.splice_eq]
      simp
    · have hnew : Cut seen above pos e' l (A ++ (C ++ (E ++ A'))) C' E' F' := by
        refine ⟨by rw [hcut.whole, hcut'.whole]; simp, ?_, hcut'.passed, hcut'.rest, hcut'.inside⟩
        refine takeSeen_eq (by rw [hcut.whole, hcut'.whole]; simp) ?_ ?_
        · simp only [countP_append, hA, hC, hE, hA']; omega
        · rw [← append_assoc, ← append_assoc]
          rw [append_assoc]
          exact endsSeen_append_right (endsSeen_append hEs hAs') hnil
      rw [hnew.splice_eq]
      simp

/-- Cut a sequence where its kept part is cut, when the part on the left was all seen. -/
theorem split_keep (hst : ∀ a, isT a = true → seen a = false)
    {M A₀ R : List α} (hM : M.filter (fun a => seen a || isT a) = A₀ ++ R)
    (hA₀ : ∀ a ∈ A₀, seen a = true) :
    ∃ A B, M = A ++ B ∧ A.countP seen = A₀.length ∧ EndsSeen seen A ∧
      A.filter (fun a => !isT a) = A ∧ A.filter seen = A₀ ∧
      B.filter (fun a => seen a || isT a) = R := by
  obtain ⟨P, Q, rfl, hP, hQ⟩ := List.filter_eq_append_iff.mp hM
  have hPT : ∀ a ∈ P, isT a = false := by
    intro a ha
    cases hT : isT a with
    | false => rfl
    | true =>
      have : a ∈ A₀ := by rw [← hP]; simp [ha, hT]
      have h1 := hA₀ a this
      rw [hst a hT] at h1
      cases h1
  have hPs : P.filter seen = A₀ := by
    rw [← hP]
    refine filter_congr (fun a ha => ?_)
    simp [hPT a ha]
  have hcount : P.countP seen = A₀.length := by rw [countP_eq_length_filter, hPs]
  obtain ⟨hA, hAs⟩ := takeSeen_count (show A₀.length ≤ P.countP seen by omega)
  have happ := takeSeen_append seen A₀.length P
  cases hsplit : takeSeen seen A₀.length P with
  | mk A m =>
    rw [hsplit] at hA hAs happ
    dsimp only at hA hAs happ
    have hm : m.countP seen = 0 := by
      have := congrArg (List.countP seen) happ
      rw [countP_append] at this
      omega
    have hmf : ∀ a ∈ m, seen a = false := by
      intro a ha
      simpa using List.countP_eq_zero.mp hm a ha
    refine ⟨A, m ++ Q, by rw [← happ]; simp, hA, hAs, ?_, ?_, ?_⟩
    · rw [filter_eq_self]
      intro a ha
      simp [hPT a (by rw [← happ]; simp [ha])]
    · have hnil : m.filter seen = [] :=
        List.filter_eq_nil_iff.mpr (fun a ha => by simp [hmf a ha])
      have := congrArg (List.filter seen) happ
      rw [filter_append, hPs, hnil] at this
      simpa using this
    · rw [filter_append, hQ, List.filter_eq_nil_iff.mpr]
      · rfl
      · intro a ha
        simp [hmf a ha, hPT a (by rw [← happ]; simp [ha])]

/-- **A block stays in one piece**: nothing that did not see it gets between two of its
elements. `w` is the element of the block just before. -/
theorem block_contiguous {t : τ}
    (hs : ∀ a, seen a = true ↔ saw t (ts a)) (hT : ∀ a, isT a = true ↔ ts a = t) :
    ∀ (text P : List α) (w : α) (M R : List α), ts w = t → Ordered ts saw (P ++ w :: M) →
      (∀ y ∈ M, isT y = false → ¬ saw (ts y) t) →
      M.filter (fun a => seen a || isT a) = text ++ R → (∀ x ∈ text, isT x = true) →
      ∃ N, M = text ++ N ∧ N.filter (fun a => seen a || isT a) = R ∧
        ∃ P' w', ts w' = t ∧ P ++ w :: M = P' ++ w' :: N
  | [], P, w, M, R, hw, _, _, hM, _ => ⟨M, rfl, by simpa using hM, P, w, hw, rfl⟩
  | x :: text, P, w, M, R, hw, ho, hn, hM, ht => by
      obtain ⟨m, M', rfl, hm, -, hM'⟩ := List.filter_eq_cons_iff.mp hM
      have hx : ts x = t := (hT x).mp (ht x (mem_cons_self ..))
      have hmnil : m = [] := by
        cases m with
        | nil => rfl
        | cons y m =>
          exfalso
          have hy := hm y (mem_cons_self ..)
          simp only [Bool.or_eq_true, not_or, Bool.not_eq_true] at hy
          -- left of `x` there is `y`, which its author had not seen: `y` is newer
          have hcx := ho (P ++ w :: (y :: m)) x M' (by simp)
          rw [hx] at hcx
          unfold Covered at hcx
          rw [append_cons, cov_append] at hcx
          have hge := (le_of_cov hcx (fun a ha h => by
            have := hm a ha
            simp [(hs a).mpr h] at this)).2 y (mem_cons_self ..)
          -- left of `y` there is `w`, which its author had not seen: `y` is older
          have hcy := ho (P ++ [w]) y (m ++ x :: M') (by simp)
          unfold Covered at hcy
          rw [cov_append] at hcy
          rcases hcy with h | ⟨h, -⟩
          · rw [hw] at h
            exact hn y (by simp) hy.2 h
          · rw [hw] at h
            have := (hT y).mpr (le_antisymm h hge)
            rw [hy.2] at this
            cases this
      subst hmnil
      obtain ⟨N, hN, hR, P', w', hw', hP'⟩ := block_contiguous hs hT text (P ++ [w]) x M' R hx
        (by simpa using ho) (fun y hy => hn y (mem_cons_of_mem _ hy)) hM'
        (fun z hz => ht z (mem_cons_of_mem _ hz))
      exact ⟨N, by rw [hN]; rfl, hR, P', w', hw', by rw [← hP']; simp⟩

theorem head_lt_of_block {t : τ} (hT : ∀ a, isT a = true ↔ ts a = t) :
    ∀ (N P : List α) (w : α), ts w = t → Ordered ts saw (P ++ w :: N) →
      (∀ y ∈ N, isT y = false → ¬ saw (ts y) t) →
      ∀ q, (N.filter (fun a => !isT a)).head? = some q → ts q < t
  | [], _, _, _, _, _, _, h => by simp at h
  | y :: N, P, w, hw, ho, hn, q, h => by
      cases hy : isT y with
      | true =>
        rw [filter_cons_of_neg (by simp [hy])] at h
        exact head_lt_of_block hT N (P ++ [w]) y ((hT y).mp hy) (by simpa using ho)
          (fun z hz => hn z (mem_cons_of_mem _ hz)) q h
      | false =>
        rw [filter_cons_of_pos (by simp [hy])] at h
        simp only [head?_cons, Option.some.injEq] at h
        subst h
        have hcy := ho (P ++ [w]) y N (by simp)
        unfold Covered at hcy
        rw [cov_append] at hcy
        rcases hcy with h | ⟨h, -⟩
        · rw [hw] at h
          exact absurd h (hn y (by simp) hy)
        · rw [hw] at h
          refine lt_of_le_of_ne h (fun heq => ?_)
          rw [(hT y).mpr heq] at hy
          cases hy

/-- Splicing where everything was seen: positions are plain indices. -/
def insertAll (pos : Nat) (es : List (Edit α)) (l : List α) : List α :=
  splice (fun _ => true) (fun _ => false) id pos es l

theorem takeSeen_all (n : Nat) (l : List α) :
    takeSeen (fun _ => true) n l = (l.take n, l.drop n) := by
  induction l generalizing n with
  | nil => cases n <;> rfl
  | cons a l ih =>
    cases n with
    | zero => rfl
    | succ n => simp only [takeSeen, if_true, ih, take_succ_cons, drop_succ_cons]

theorem splice_all_cons {e : Edit α} {es : List (Edit α)} :
    splice (fun _ => true) (fun _ => false) hit pos (e :: es) l =
      l.take (e.start - pos) ++ (e.text ++
        (((l.drop (e.start - pos)).take (e.stop - e.start)).map hit ++
          splice (fun _ => true) (fun _ => false) hit e.stop es
            ((l.drop (e.start - pos)).drop (e.stop - e.start)))) := by
  have htw : ∀ m : List α, m.takeWhile (fun _ => false) = [] := by intro m; cases m <;> rfl
  have hdw : ∀ m : List α, m.dropWhile (fun _ => false) = m := by intro m; cases m <;> rfl
  simp only [splice, takeSeen_all, htw, hdw, append_assoc, nil_append]

theorem insertAll_cons {e : Edit α} {es : List (Edit α)} :
    insertAll pos (e :: es) l = l.take (e.start - pos) ++ (e.text ++
      ((l.drop (e.start - pos)).take (e.stop - e.start) ++
        insertAll e.stop es ((l.drop (e.start - pos)).drop (e.stop - e.start)))) := by
  simp only [insertAll, splice_all_cons, map_id]

/--
**The sequence determines where the edit goes.** `M` already holds the edit's
elements; restricted to what the edit's author saw they stand where the edit puts
them. Then splicing the edit into the rest of `M` gives `M` back, whatever else has
been inserted meanwhile.
-/
theorem splice_unique {t : τ}
    (hs : ∀ a, seen a = true ↔ saw t (ts a)) (ha : ∀ a, above a = true ↔ t < ts a)
    (hab : ∀ a, above a = true → seen a = false) (hT : ∀ a, isT a = true ↔ ts a = t)
    (hst : ∀ a, isT a = true → seen a = false) :
    ∀ (es : List (Edit α)) (pos : Nat) (M : List α),
      Valid pos es (pos + M.countP seen) → (∀ e ∈ es, ∀ x ∈ e.text, isT x = true) →
      M.filter (fun a => seen a || isT a) = insertAll pos es (M.filter seen) →
      (∀ y ∈ M, isT y = false → ¬ saw (ts y) t) → Ordered ts saw M →
      splice seen above id pos es (M.filter (fun a => !isT a)) = M
  | [], _, M, _, _, hM, _, _ => by
      -- nothing was inserted, so nothing was filtered out
      simp only [splice]
      rw [filter_eq_self]
      intro a haM
      cases hTa : isT a with
      | false => rfl
      | true =>
        have : a ∈ M.filter seen := by
          have h : M.filter (fun a => seen a || isT a) = M.filter seen := hM
          rw [← h]; simp [haM, hTa]
        have h1 := (List.mem_filter.mp this).2
        rw [hst a hTa] at h1
        cases h1
  | e :: es, pos, M, hv, ht, hM, hn, ho => by
      have hab' : ∀ a : α, (fun _ : α => false) a = true → (fun _ : α => true) a = false := by
        simp
      have hcountT : (M.filter (fun a => !isT a)).countP seen = M.countP seen := by
        rw [countP_filter]
        refine countP_congr (fun a _ => ?_)
        cases hTa : isT a with
        | false => simp
        | true => simp [hst a hTa]
      have hlen : (M.filter seen).countP (fun _ => true) = M.countP seen := by
        simp [countP_eq_length_filter]
      by_cases hnil : e.text = []
      · -- an empty edit can be dropped on both sides
        rw [splice_nil_text hab hnil (by rw [hcountT]; exact hv)]
        refine splice_unique hs ha hab hT hst es pos M ((hv.2.2).mono_left (le_trans hv.1 hv.2.1))
          (fun e' he' => ht e' (mem_cons_of_mem _ he')) ?_ hn ho
        rw [hM]
        exact splice_nil_text hab' hnil (by rw [hlen]; exact hv)
      obtain ⟨hv1, hv2, hv3⟩ := hv
      have hbound := hv3.le
      have htext := ht e (mem_cons_self ..)
      have hsub : ∀ {m : List α}, m.Sublist (M.filter seen) → ∀ a ∈ m, seen a = true :=
        fun hsl a ha => (List.mem_filter.mp (hsl.subset ha)).2
      rw [insertAll_cons] at hM
      have hMl : (M.filter seen).length = M.countP seen := by
        rw [countP_eq_length_filter]
      -- what the author saw before the edit
      obtain ⟨A, B, rfl, hAc, hAs, hAT, hAf, hB⟩ :=
        split_keep hst hM (hsub (take_sublist ..))
      have hAc' : A.countP seen = e.start - pos := by
        rw [hAc, length_take, hMl]; omega
      -- the part passed over, up to the first inserted element
      obtain ⟨x, text, hxt⟩ := exists_cons_of_ne_nil hnil
      have hBx : B.filter (fun a => seen a || isT a) = x :: (text ++
          (((List.filter seen (A ++ B)).drop (e.start - pos)).take (e.stop - e.start) ++
            insertAll e.stop es
              (((List.filter seen (A ++ B)).drop (e.start - pos)).drop (e.stop - e.start)))) := by
        rw [hB, hxt]; rfl
      obtain ⟨C, M₂, rfl, hC, -, hM₂⟩ := List.filter_eq_cons_iff.mp hBx
      have hx : ts x = t := (hT x).mp (htext x (by rw [hxt]; simp))
      have hCn : ∀ a ∈ C, seen a = false ∧ isT a = false := by
        intro a haC
        have := hC a haC
        simpa using this
      have hCabove : ∀ a ∈ C, above a = true := by
        have hcov := ho (A ++ C) x M₂ (by simp)
        rw [hx] at hcov
        unfold Covered at hcov
        rw [cov_append] at hcov
        have hle := (le_of_cov hcov (fun a haC h => by
          have := (hCn a haC).1
          rw [(hs a).mpr h] at this
          exact absurd this (by simp))).2
        intro a haC
        refine (ha a).mpr (lt_of_le_of_ne (hle a haC) (fun heq => ?_))
        have := (hCn a haC).2
        rw [(hT a).mpr heq.symm] at this
        cases this
      -- the block, in one piece
      obtain ⟨N, hN, hNf, P', w', hw', hP'⟩ := block_contiguous hs hT text (A ++ C) x M₂ _ hx
        (by simpa using ho) (fun y hy => hn y (by simp [hy])) hM₂
        (fun z hz => htext z (by rw [hxt]; simp [hz]))
      have hoN : Ordered ts saw (P' ++ w' :: N) := by rw [← hP']; simpa using ho
      have hhead := head_lt_of_block hT N P' w' hw' hoN (fun y hy => hn y (by simp [hN, hy]))
      -- what the author saw inside the edit's range
      have hfil : List.filter seen (A ++ (C ++ x :: M₂)) = A.filter seen ++ N.filter seen := by
        have hCf : C.filter seen = [] :=
          List.filter_eq_nil_iff.mpr (fun a ha => by simp [(hCn a ha).1])
        have hTf : (x :: text).filter seen = [] :=
          List.filter_eq_nil_iff.mpr (fun a ha => by
            simp [hst a (htext a (by rw [hxt]; exact ha))])
        rw [hN, ← cons_append, filter_append, filter_append, filter_append, hCf, hTf]
        simp
      have hdrop : (List.filter seen (A ++ (C ++ x :: M₂))).drop (e.start - pos) =
          N.filter seen := by
        rw [hfil, drop_left' (by rw [← countP_eq_length_filter, hAc'])]
      rw [hdrop] at hNf
      have hNl : e.stop - e.start ≤ (N.filter seen).length := by
        have h1 := congrArg List.length hfil
        rw [← countP_eq_length_filter, length_append, ← countP_eq_length_filter, hAc'] at h1
        omega
      obtain ⟨E, F, rfl, hEc, hEs, hET, hEf, hF⟩ :=
        split_keep hst hNf (fun a ha =>
          (List.mem_filter.mp ((take_sublist ..).subset ha)).2)
      rw [length_take, min_eq_left hNl] at hEc
      have hFf : ((E ++ F).filter seen).drop (e.stop - e.start) = F.filter seen := by
        rw [filter_append, drop_left' (by rw [← countP_eq_length_filter, hEc])]
      rw [hFf] at hF
      have hFc : e.stop + F.countP seen = pos + (A ++ (C ++ x :: M₂)).countP seen := by
        rw [countP_eq_length_filter (l := A ++ (C ++ x :: M₂)), hfil, length_append,
          ← countP_eq_length_filter, ← countP_eq_length_filter, countP_append, hAc',
          hEc]
        omega
      have ih := splice_unique hs ha hab hT hst es e.stop F (by rw [hFc]; exact hv3)
        (fun e' he' => ht e' (mem_cons_of_mem _ he')) hF
        (fun y hy => hn y (by simp [hN, hy]))
        (Ordered.of_append (l := P' ++ w' :: E) (by simpa using hoN))
      -- so the edit cuts the rest of `M` in the same places
      have hfilT : (A ++ (C ++ x :: M₂)).filter (fun a => !isT a) =
          A ++ (C ++ (E ++ F.filter (fun a => !isT a))) := by
        have hCf : C.filter (fun a => !isT a) = C :=
          List.filter_eq_self.mpr (fun a ha => by simp [(hCn a ha).2])
        have hTf : (x :: text).filter (fun a => !isT a) = [] :=
          List.filter_eq_nil_iff.mpr (fun a ha => by simp [htext a (by rw [hxt]; exact ha)])
        rw [hN, ← cons_append, filter_append, filter_append, filter_append,
          filter_append, hCf, hTf, hAT, hET]
        simp
      have hheadF : ∀ q, (E ++ F.filter (fun a => !isT a)).head? = some q → above q = false := by
        intro q hq
        have hlt := hhead q (by rw [filter_append, hET]; exact hq)
        cases hq' : above q with
        | false => rfl
        | true => exact absurd ((ha q).mp hq') (not_lt.mpr (le_of_lt hlt))
      have hcut : Cut seen above pos e ((A ++ (C ++ x :: M₂)).filter (fun a => !isT a)) A C E
          (F.filter (fun a => !isT a)) := by
        refine ⟨hfilT, takeSeen_eq hfilT hAc' hAs, ?_, ?_, takeSeen_eq rfl hEc hEs⟩
        · rw [takeWhile_append_of_pos hCabove, takeWhile_eq_nil_of_head hheadF, append_nil]
        · rw [dropWhile_append_of_pos hCabove, dropWhile_eq_self_of_head hheadF]
      rw [hcut.splice_eq, ih, map_id, hxt, hN]
      simp

end Ordered

/-- **What the author saw**: among the seen elements a splice is a plain insertion. -/
theorem filter_splice_seen (hab : ∀ a, above a = true → seen a = false) :
    ∀ (es : List (Edit α)) (pos : Nat) (l : List α), Valid pos es (pos + l.countP seen) →
      (∀ e ∈ es, ∀ x ∈ e.text, isT x = true) → (∀ a ∈ l, isT a = false) →
      (splice seen above id pos es l).filter (fun a => seen a || isT a) =
        insertAll pos es (l.filter seen)
  | [], _, l, _, _, hl => by
      simp only [splice, insertAll]
      exact filter_congr (fun a ha => by simp [hl a ha])
  | e :: es, pos, l, hv, ht, hl => by
      obtain ⟨A, C, E, F, hcut⟩ := exists_cut seen above pos e l
      obtain ⟨hv1, hv2, hv3⟩ := hv
      obtain ⟨hA, -, hC, hE, -, hF⟩ := hcut.counts hab hv1 hv2 hv3.le
      have hkeep : ∀ m : List α, (∀ a ∈ m, a ∈ l) →
          m.filter (fun a => seen a || isT a) = m.filter seen :=
        fun m hm => filter_congr (fun a ha => by simp [hl a (hm a ha)])
      have hCf : C.filter seen = [] := by
        rw [← length_eq_zero_iff, ← countP_eq_length_filter, hC]
      have htext : e.text.filter (fun a => seen a || isT a) = e.text :=
        List.filter_eq_self.mpr (fun a ha => by simp [ht e (mem_cons_self ..) a ha])
      have ih := filter_splice_seen hab es e.stop F (by rw [← hF]; exact hv3)
        (fun e' he' => ht e' (mem_cons_of_mem _ he'))
        (fun a ha => hl a (by rw [hcut.whole]; simp [ha]))
      have hfil : l.filter seen = A.filter seen ++ (E.filter seen ++ F.filter seen) := by
        rw [hcut.whole, filter_append, filter_append, filter_append, hCf]
        simp
      have hAl : (A.filter seen).length = e.start - pos := by
        rw [← countP_eq_length_filter, hA]
      have hEl : (E.filter seen).length = e.stop - e.start := by
        rw [← countP_eq_length_filter, hE]
      rw [hcut.splice_eq, insertAll_cons, hfil, take_left' hAl, drop_left' hAl,
        take_left' hEl, drop_left' hEl, map_id, filter_append,
        filter_append, filter_append, filter_append, htext, ih,
        hkeep A (fun a ha => by rw [hcut.whole]; simp [ha]),
        hkeep C (fun a ha => by rw [hcut.whole]; simp [ha]),
        hkeep E (fun a ha => by rw [hcut.whole]; simp [ha]), hCf]
      simp

/-! ## Which elements an edit hits -/

/-- Apply `hit` to the seen elements whose position satisfies `p`. -/
def hitAt (p : Nat → Bool) (seen : α → Bool) (hit : α → α) : Nat → List α → List α
  | _, [] => []
  | n, a :: l =>
    if seen a then (if p n then hit a else a) :: hitAt p seen hit (n + 1) l
    else a :: hitAt p seen hit n l

/-- The positions inside the range of some edit. -/
def inRanges (es : List (Edit α)) (n : Nat) : Bool :=
  es.any fun e => decide (e.start ≤ n) && decide (n < e.stop)

section HitAt

variable {p : Nat → Bool}

theorem hitAt_append : ∀ (l m : List α) (n : Nat),
    hitAt p seen hit n (l ++ m) = hitAt p seen hit n l ++ hitAt p seen hit (n + l.countP seen) m
  | [], _, _ => rfl
  | a :: l, m, n => by
      cases hs : seen a with
      | true =>
        rw [countP_cons_of_pos hs]
        simp only [cons_append, hitAt, hs, if_true, hitAt_append l m (n + 1)]
        rw [show n + 1 + l.countP seen = n + (l.countP seen + 1) by omega]
      | false =>
        rw [countP_cons_of_neg (by simp [hs])]
        simp [hitAt, hs, hitAt_append l m n]

theorem hitAt_congr {q : Nat → Bool} : ∀ (l : List α) (n : Nat),
    (∀ i, n ≤ i → i < n + l.countP seen → p i = q i) → hitAt p seen hit n l = hitAt q seen hit n l
  | [], _, _ => rfl
  | a :: l, n, h => by
      cases hs : seen a with
      | true =>
        rw [countP_cons_of_pos hs] at h
        simp only [hitAt, hs, if_true]
        rw [h n (le_refl _) (by omega),
          hitAt_congr l (n + 1) (fun i h1 h2 => h i (by omega) (by omega))]
      | false =>
        rw [countP_cons_of_neg (by simp [hs])] at h
        simp only [hitAt, hs, Bool.false_eq_true, if_false]
        rw [hitAt_congr l n h]

theorem hitAt_false : ∀ (l : List α) (n : Nat), hitAt (fun _ => false) seen hit n l = l
  | [], _ => rfl
  | a :: l, n => by
      cases hs : seen a with
      | true => simp [hitAt, hs, hitAt_false l]
      | false => simp [hitAt, hs, hitAt_false l]

theorem hitAt_true (hu : ∀ a, seen a = false → hit a = a) :
    ∀ (l : List α) (n : Nat), hitAt (fun _ => true) seen hit n l = l.map hit
  | [], _ => rfl
  | a :: l, n => by
      cases hs : seen a with
      | true => simp [hitAt, hs, hitAt_true hu l]
      | false => simp [hitAt, hs, hitAt_true hu l, hu a hs]

theorem hitAt_head (ha : ∀ a, above (hit a) = above a) (l : List α) (n : Nat) (q : α)
    (hq : (hitAt p seen hit n l).head? = some q) : ∃ b, l.head? = some b ∧ above q = above b := by
  cases l with
  | nil => simp [hitAt] at hq
  | cons b l =>
    refine ⟨b, rfl, ?_⟩
    cases hs : seen b with
    | true =>
      cases hp : p n with
      | true => simp [hitAt, hs, hp] at hq; rw [← hq, ha]
      | false => simp [hitAt, hs, hp] at hq; rw [← hq]
    | false => simp [hitAt, hs] at hq; rw [← hq]

theorem not_inRanges_of_lt {limit n : Nat} :
    ∀ {es : List (Edit α)} {pos : Nat}, Valid pos es limit → n < pos → inRanges es n = false
  | [], _, _, _ => rfl
  | e :: es, pos, hv, hn => by
      obtain ⟨h1, h2, h3⟩ := hv
      have ih := not_inRanges_of_lt h3 (show n < e.stop by omega)
      simp only [inRanges, any_cons] at ih ⊢
      rw [ih]
      have : ¬ e.start ≤ n := by omega
      simp [this]

/-- **Hitting and inserting are independent**: an edit first hits the elements at the
positions in its ranges, and then inserts. -/
theorem splice_hit (hab : ∀ a, above a = true → seen a = false)
    (hu : ∀ a, seen a = false → hit a = a) (hs : ∀ a, seen (hit a) = seen a)
    (ha : ∀ a, above (hit a) = above a) :
    ∀ (es : List (Edit α)) (pos : Nat) (l : List α), Valid pos es (pos + l.countP seen) →
      splice seen above hit pos es l =
        splice seen above id pos es (hitAt (inRanges es) seen hit pos l)
  | [], _, l, _ => by
      have : hitAt (inRanges ([] : List (Edit α))) seen hit = hitAt (fun _ => false) seen hit :=
        rfl
      simp only [splice, this, hitAt_false]
  | e :: es, pos, l, hv => by
      obtain ⟨A, C, E, F, hcut⟩ := exists_cut seen above pos e l
      obtain ⟨hv1, hv2, hv3⟩ := hv
      obtain ⟨hA, hAs, hC, hE, hEs, hF⟩ := hcut.counts hab hv1 hv2 hv3.le
      have hCu : ∀ n, hitAt (inRanges (e :: es)) seen hit n C = C := by
        intro n
        rw [hitAt_congr (q := fun _ => false) C n (fun i h1 h2 => by omega), hitAt_false]
      have hAu : hitAt (inRanges (e :: es)) seen hit pos A = A := by
        rw [hitAt_congr (q := fun _ => false) A pos, hitAt_false]
        intro i h1 h2
        exact not_inRanges_of_lt
          (show Valid e.start (e :: es) (pos + l.countP seen) from ⟨le_refl _, hv2, hv3⟩) (by omega)
      have hEh : hitAt (inRanges (e :: es)) seen hit e.start E = E.map hit := by
        rw [hitAt_congr (q := fun _ => true) E e.start, hitAt_true hu]
        intro i h1 h2
        have : i < e.stop := by omega
        simp [inRanges, h1, this]
      have hFh : hitAt (inRanges (e :: es)) seen hit e.stop F =
          hitAt (inRanges es) seen hit e.stop F := by
        refine hitAt_congr F e.stop (fun i h1 h2 => ?_)
        have : ¬ i < e.stop := by omega
        simp [inRanges, this]
      have hwhole : hitAt (inRanges (e :: es)) seen hit pos l =
          A ++ (C ++ (E.map hit ++ hitAt (inRanges es) seen hit e.stop F)) := by
        conv_lhs => rw [hcut.whole]
        rw [hitAt_append, hitAt_append, hitAt_append, hAu, hCu, hA, hC,
          show pos + (e.start - pos) + 0 = e.start by omega, hEh, hE,
          show e.start + (e.stop - e.start) = e.stop by omega, hFh]
      have hEc : (E.map hit).countP seen = e.stop - e.start := by
        rw [countP_map, ← hE]
        exact countP_congr (fun a _ => by simp [hs])
      have hEs' : EndsSeen seen (E.map hit) := by
        intro a haE
        rw [getLast?_map] at haE
        obtain ⟨b, hb, rfl⟩ := Option.map_eq_some_iff.mp haE
        rw [hs]
        exact hEs b hb
      have hhead : ∀ q, (E.map hit ++ hitAt (inRanges es) seen hit e.stop F).head? = some q →
          above q = false := by
        intro q hq
        cases E with
        | nil =>
          obtain ⟨b, hb, hqb⟩ := hitAt_head ha F e.stop q (by simpa using hq)
          rw [hqb]
          exact hcut.not_above_head b (by simpa using hb)
        | cons b E =>
          simp only [map_cons, cons_append, head?_cons, Option.some.injEq] at hq
          rw [← hq, ha]
          exact hcut.not_above_head b (by simp)
      have hcut' : Cut seen above pos e (hitAt (inRanges (e :: es)) seen hit pos l) A C (E.map hit)
          (hitAt (inRanges es) seen hit e.stop F) := by
        refine ⟨hwhole, takeSeen_eq hwhole hA hAs, ?_, ?_, takeSeen_eq rfl hEc hEs'⟩
        · rw [takeWhile_append_of_pos hcut.above_passed, takeWhile_eq_nil_of_head hhead, append_nil]
        · rw [dropWhile_append_of_pos hcut.above_passed, dropWhile_eq_self_of_head hhead]
      rw [hcut.splice_eq, hcut'.splice_eq, map_id,
        splice_hit hab hu hs ha es e.stop F (by rw [← hF]; exact hv3)]

/-- `hitAt` as a map, when the elements have distinct keys: the position of an element
is the index of its key among the seen ones. -/
theorem hitAt_eq_map {κ : Type} [BEq κ] [LawfulBEq κ] (key : α → κ) :
    ∀ (l : List α) (n : Nat), (l.map key).Nodup → hitAt p seen hit n l =
        l.map (fun a => if seen a && p (n + ((l.filter seen).map key).idxOf (key a))
          then hit a else a)
  | [], _, _ => rfl
  | a :: l, n, hnd => by
      rw [map_cons, nodup_cons] at hnd
      have hne : ∀ b ∈ l, key a ≠ key b := by
        intro b hb heq
        exact hnd.1 (heq ▸ mem_map_of_mem hb)
      cases hs : seen a with
      | true =>
        rw [filter_cons_of_pos hs, map_cons]
        simp only [hitAt, hs, if_true, map_cons, Bool.true_and, idxOf_cons_self, add_zero]
        rw [hitAt_eq_map key l (n + 1) hnd.2]
        congr 1
        refine map_congr_left (fun b hb => ?_)
        rw [idxOf_cons_ne _ (hne b hb),
          show n + 1 + ((l.filter seen).map key).idxOf (key b) =
            n + (((l.filter seen).map key).idxOf (key b)).succ by omega]
      | false =>
        rw [filter_cons_of_neg (by simp [hs])]
        simp only [hitAt, hs, map_cons, Bool.false_and, Bool.false_eq_true, if_false]
        rw [hitAt_eq_map key l n hnd.2]

end HitAt

end SpkEditor.Splice
