import SpkEditor.Diff.StreamingDiff
import Mathlib.Algebra.Order.Ring.Nat

/-!
# The streaming diff loses nothing

Whatever the scores are, every access to the matrix is inside it (`Matrix.Shape`), and
tracing back gives operations that turn the settled part of the old text into the text
that was pushed (`backtrackFrom_spec`).
-/

namespace SpkEditor

open List Option

/-- A loop whose body keeps an invariant and never fails. -/
theorem foldlM_some {α β : Type} {P : β → Prop} {f : β → α → Option β} : ∀ {l : List α} {s : β},
    (∀ s, ∀ x ∈ l, P s → ∃ s', f s x = some s' ∧ P s') → P s → ∃ s', l.foldlM f s = some s' ∧ P s'
  | [], s, _, hs => ⟨s, rfl, hs⟩
  | x :: l, s, h, hs => by
      obtain ⟨s₁, heq, hs₁⟩ := h s x (mem_cons_self ..) hs
      obtain ⟨s₂, heq₂, hs₂⟩ := foldlM_some (fun s y hy => h s y (mem_cons_of_mem _ hy)) hs₁
      exact ⟨s₂, by rw [foldlM_cons, heq]; exact heq₂, hs₂⟩

section

variable {S : Type} {sc : Scoring S}

structure Matrix.Shape (m : Matrix S) (rows cols : Nat) : Prop where
  rows_eq : m.rows = rows
  cols_eq : m.cols = cols
  sized : m.cells.length = rows * cols

namespace Matrix

variable {m : Matrix S} {rows cols row col : Nat}

theorem index_lt (hr : row < rows) (hc : col < cols) : col * rows + row < rows * cols := by
  have h1 : (col + 1) * rows ≤ cols * rows := Nat.mul_le_mul_right _ hc
  rw [Nat.add_mul, one_mul] at h1
  rw [mul_comm rows cols]
  omega

section

variable (h : m.Shape rows cols) (hr : row < rows) (hc : col < cols)
include h hr hc

theorem get_some : ∃ v, m.get row col = some v := by
  have hlt := index_lt hr hc
  unfold get
  rw [h.rows_eq, h.cols_eq, if_neg (by omega), if_neg (by omega)]
  exact ⟨_, getElem?_eq_getElem (by rw [h.sized]; exact hlt)⟩

theorem set_some (v : S) : ∃ m', m.set row col v = some m' ∧ m'.Shape rows cols := by
  have hlt := index_lt hr hc
  unfold set
  rw [h.rows_eq, h.cols_eq, h.sized, if_neg (by omega), if_neg (by omega), if_neg (by omega)]
  exact ⟨_, rfl, rfl, rfl, by simp [h.sized]⟩

end

theorem swapColumns_some {col1 col2 : Nat} (h : m.Shape rows cols) (h1 : col1 < cols) (h2 : col2 < cols) :
    ∃ m', m.swapColumns sc col1 col2 = some m' ∧ m'.Shape rows cols := by
  unfold swapColumns
  split
  · exact ⟨m, rfl, h⟩
  · rw [h.cols_eq, if_neg (by omega), if_neg (by omega)]
    exact ⟨_, rfl, h.rows_eq, rfl, by simp [h.sized]⟩

theorem shape_resize (m : Matrix S) (rows cols : Nat) : (m.resize sc rows cols).Shape rows cols := by
  refine ⟨rfl, rfl, ?_⟩
  simp only [resize, resizeCells, length_append, length_take, length_replicate]
  omega

end Matrix

namespace StreamingDiff

/-! ## Scores -/

theorem scoreCell_some {old new : List Char} {newTextIx i j cols : Nat} {st : Matrix S × EqualRuns}
    (hm : st.1.Shape (old.length + 1) cols) (hi : 1 ≤ i ∧ i ≤ old.length)
    (hj : newTextIx < j ∧ j ≤ new.length) (hc : j - newTextIx < cols) :
    ∃ st', scoreCell sc old new newTextIx j st i = some st' ∧ st'.1.Shape (old.length + 1) cols := by
  obtain ⟨a, ha⟩ := Matrix.get_some hm (show i < old.length + 1 by omega)
    (show j - newTextIx - 1 < cols by omega)
  obtain ⟨b, hb⟩ := Matrix.get_some hm (show i - 1 < old.length + 1 by omega) hc
  obtain ⟨c, hdiag⟩ := Matrix.get_some hm (show i - 1 < old.length + 1 by omega)
    (show j - newTextIx - 1 < cols by omega)
  have ho : old[i - 1]? = some old[i - 1] := getElem?_eq_getElem (by omega)
  have hn : new[j - 1]? = some new[j - 1] := getElem?_eq_getElem (by omega)
  unfold scoreCell
  simp only [ha, hb, ho, hn, hdiag, bind_eq_bind, bind_some, Option.pure_def]
  split
  · obtain ⟨m', hset, hshape⟩ := Matrix.set_some hm (show i < old.length + 1 by omega) hc
      (sc.max (sc.max (sc.insertion a) (sc.deletion b)) (sc.equality c
        (min (((st.2.lookup (i - 1, j - 1)).getD 0 + 1) / 4) MAX_EQUALITY_EXPONENT)))
    exact ⟨(m', _), by simp only [bind_some, hset]; rfl, hshape⟩
  · obtain ⟨m', hset, hshape⟩ := Matrix.set_some hm (show i < old.length + 1 by omega) hc
      (sc.max (sc.max (sc.insertion a) (sc.deletion b)) sc.negInfinity)
    exact ⟨(m', _), by simp only [bind_some, hset]; rfl, hshape⟩

theorem scoreColumn_some {old new : List Char} {newTextIx j cols : Nat} {st : Matrix S × EqualRuns}
    (hm : st.1.Shape (old.length + 1) cols) (hj : newTextIx < j ∧ j ≤ new.length)
    (hc : j - newTextIx < cols) :
    ∃ st', scoreColumn sc old new newTextIx st j = some st' ∧ st'.1.Shape (old.length + 1) cols := by
  obtain ⟨m, hset, hshape⟩ := Matrix.set_some hm (Nat.succ_pos _) hc (sc.insertionAt j)
  unfold scoreColumn
  rw [hset]
  refine foldlM_some (P := fun st : Matrix S × EqualRuns => st.1.Shape (old.length + 1) cols)
    (fun st i hi hst => scoreCell_some hst ?_ hj hc) hshape
  have := List.mem_range'_1.mp hi
  omega

theorem bestRow_some {m : Matrix S} {col cols rows lo top i : Nat} {best : S × Nat}
    (hm : m.Shape rows cols) (hc : col < cols) (hi : lo ≤ i ∧ i ≤ top) (hrow : i < rows)
    (hb : lo ≤ best.2 ∧ best.2 ≤ top) :
    ∃ best', bestRow sc m col best i = some best' ∧ lo ≤ best'.2 ∧ best'.2 ≤ top := by
  obtain ⟨score, hget⟩ := Matrix.get_some hm hrow hc
  unfold bestRow
  rw [hget]
  refine ⟨_, rfl, ?_⟩
  split
  · exact hi
  · exact hb

theorem splitBytes_add (c : Char) (len : Nat) (rest : List Char) :
    splitBytes (len + c.utf8Size) (c :: rest) =
      (splitBytes len rest).map fun r => (c :: r.1, r.2) := by
  have hpos := c.utf8Size_pos
  obtain ⟨n, hn⟩ : ∃ n, len + c.utf8Size = n + 1 := ⟨len + c.utf8Size - 1, by omega⟩
  rw [hn, splitBytes, if_pos (by omega), show n + 1 - c.utf8Size = len by omega]

theorem splitBytes_char (c : Char) (rest : List Char) :
    splitBytes c.utf8Size (c :: rest) = some ([c], rest) := by
  have := splitBytes_add c 0 rest
  rw [zero_add] at this
  rw [this, splitBytes]
  rfl

section

variable (c : Char) (ops : List CharOperation) (rest : List Char)

theorem apply_pushDelete :
    applyOperations (pushDelete c.utf8Size ops) (c :: rest) = applyOperations ops rest := by
  unfold pushDelete
  split
  · rw [applyOperations, applyOperations, splitBytes_add]
    cases splitBytes _ rest <;> rfl
  · rw [applyOperations, splitBytes_char]
    rfl

theorem apply_pushKeep : applyOperations (pushKeep c.utf8Size ops) (c :: rest) =
      (applyOperations ops rest).map fun r => (c :: r.1, r.2) := by
  unfold pushKeep
  split
  · rename_i bytes hunks
    rw [applyOperations, applyOperations, splitBytes_add]
    cases splitBytes bytes rest with
    | none => rfl
    | some s =>
      dsimp only [map_some, bind_some]
      cases applyOperations hunks s.2 <;> rfl
  · rw [applyOperations, splitBytes_char]
    rfl

end

theorem apply_append : ∀ (ops ops' : List CharOperation) {old rest rest' new new' : List Char},
    applyOperations ops old = some (new, rest) → applyOperations ops' rest = some (new', rest') →
      applyOperations (ops ++ ops') old = some (new ++ new', rest')
  | [], ops', old, rest, rest', new, new', h, h' => by
      cases h
      exact h'
  | .insert text :: ops, ops', old, rest, rest', new, new', h, h' => by
      rw [applyOperations, map_eq_some_iff] at h
      obtain ⟨r, hr, heq⟩ := h
      cases heq
      rw [cons_append, applyOperations, apply_append ops ops' hr h']
      simp
  | .delete bytes :: ops, ops', old, rest, rest', new, new', h, h' => by
      rw [applyOperations, bind_eq_some_iff] at h
      obtain ⟨s, hs, hr⟩ := h
      rw [cons_append, applyOperations, hs, bind_some, apply_append ops ops' hr h']
  | .keep bytes :: ops, ops', old, rest, rest', new, new', h, h' => by
      rw [applyOperations, bind_eq_some_iff] at h
      obtain ⟨s, hs, hr⟩ := h
      rw [map_eq_some_iff] at hr
      obtain ⟨r, hr, heq⟩ := hr
      cases heq
      rw [cons_append, applyOperations, hs, bind_some, apply_append ops ops' hr h']
      simp

/-! ## Tracing back -/

def between (text : List Char) (i j : Nat) : List Char := (text.take j).drop i

theorem between_self (text : List Char) (i : Nat) : between text i i = [] := by
  rw [between, drop_eq_nil_iff, length_take]
  omega

theorem drop_pred {text : List Char} {i : Nat} (hi : 0 < i) {c : Char} (hc : text[i - 1]? = some c) :
    text.drop (i - 1) = c :: text.drop i := by
  obtain ⟨hlt, rfl⟩ := List.getElem?_eq_some_iff.mp hc
  rw [drop_eq_getElem_cons hlt, show i - 1 + 1 = i by omega]

theorem between_pred {text : List Char} {i j : Nat} (h : i < j) (hj : j ≤ text.length) {c : Char}
    (hc : text[i]? = some c) : between text i j = c :: between text (i + 1) j := by
  have hlt : i < (text.take j).length := by rw [length_take]; omega
  obtain ⟨hi, rfl⟩ := List.getElem?_eq_some_iff.mp hc
  rw [between, drop_eq_getElem_cons hlt, getElem_take]
  rfl

/-- **Where the trace has got to**: the hunks so far, with the pending insertion before them,
turn the old text from here into the new text from here, up to where it began. -/
def Traced (d : StreamingDiff S) (I J i j : Nat) (pending : Option Range) (hunks : List CharOperation) :
    Prop :=
  ∃ ops, flushInsert d.new pending hunks = some ops ∧ (∀ r, pending = some r → r.start = j) ∧
    applyOperations ops (d.old.drop i) = some (between d.new j J, d.old.drop I)

theorem maxByKey_spec {m : Matrix S} {newTextIx : Nat} {a b c : Option (Nat × Nat)} {ka kb kc : Option S}
    (ha : keyOf m newTextIx a = some ka) (hb : keyOf m newTextIx b = some kb)
    (hc : keyOf m newTextIx c = some kc) (hsome : a.isSome = true ∨ b.isSome = true) :
    ∃ x, maxByKey sc m newTextIx a b c = some (some x) ∧ (a = some x ∨ b = some x ∨ c = some x) := by
  have hkey : ∀ {x : Option (Nat × Nat)} {k : Option S}, keyOf m newTextIx x = some k →
      (k.isSome = x.isSome) := by
    intro x k hx
    cases x with
    | none => rw [← some.inj hx]; rfl
    | some p =>
      obtain ⟨i, j⟩ := p
      rw [keyOf, map_eq_some_iff] at hx
      obtain ⟨v, -, rfl⟩ := hx
      rfl
  have hgt : ∀ {x y : Option S}, keyGreater sc x y = true → x.isSome = true := by
    intro x y h
    cases x with
    | none => exact absurd h (by simp [keyGreater])
    | some v => rfl
  have hle : ∀ {x y : Option S}, keyGreater sc x y = false → x.isSome = true → y.isSome = true := by
    intro x y h hx
    cases x with
    | none => exact absurd hx (by simp)
    | some v =>
      cases y with
      | none => exact absurd h (by simp [keyGreater])
      | some w => rfl
  -- one of the first two, with a key
  have hfirst : ∃ x, (if keyGreater sc ka kb then (a, ka) else (b, kb)).1 = some x ∧
      (if keyGreater sc ka kb then (a, ka) else (b, kb)).2.isSome = true ∧ (a = some x ∨ b = some x) := by
    cases hk : keyGreater sc ka kb with
    | true =>
      have h1 := hgt hk
      rw [hkey ha] at h1
      obtain ⟨x, hx⟩ := Option.isSome_iff_exists.mp h1
      exact ⟨x, by simpa using hx, by simpa [hkey ha] using h1, .inl hx⟩
    | false =>
      have h1 : b.isSome = true := by
        rcases hsome with h | h
        · rw [← hkey ha] at h
          rw [← hkey hb]
          exact hle hk h
        · exact h
      obtain ⟨x, hx⟩ := Option.isSome_iff_exists.mp h1
      exact ⟨x, by simpa using hx, by simpa [hkey hb] using h1, .inr hx⟩
  obtain ⟨x, hx, hkx, hin⟩ := hfirst
  unfold maxByKey
  simp only [ha, hb, hc, bind_eq_bind, bind_some, Option.pure_def]
  cases hk : keyGreater sc (if keyGreater sc ka kb then (a, ka) else (b, kb)).2 kc with
  | true =>
    refine ⟨x, ?_, hin.elim .inl (fun h => .inr (.inl h))⟩
    rw [if_pos rfl, hx]
  | false =>
    have h1 := hle hk hkx
    rw [hkey hc] at h1
    obtain ⟨y, hy⟩ := Option.isSome_iff_exists.mp h1
    refine ⟨y, ?_, .inr (.inr hy)⟩
    rw [if_neg (by simp), hy]

section

variable {d : StreamingDiff S}

theorem sources_spec {i j : Nat} (hi : i ≤ d.old.length) (hj : j ≤ d.new.length) :
    ∃ equal, d.sources i j = some (if d.newTextIx < j then some (i, j - 1) else none,
        if d.oldTextIx < i then some (i - 1, j) else none, equal) ∧
      ∀ x, equal = some x → x = (i - 1, j - 1) ∧ d.oldTextIx < i ∧ d.newTextIx < j ∧
        d.old[i - 1]? = d.new[j - 1]? := by
  unfold sources
  by_cases h : d.oldTextIx < i ∧ d.newTextIx < j
  · have ho : d.old[i - 1]? = some d.old[i - 1] := getElem?_eq_getElem (by omega)
    have hn : d.new[j - 1]? = some d.new[j - 1] := getElem?_eq_getElem (by omega)
    refine ⟨if d.old[i - 1] = d.new[j - 1] then some (i - 1, j - 1) else none, ?_, fun x hx => ?_⟩
    · simp only [h, and_self, if_true, ho, hn, bind_eq_bind, bind_some, Option.pure_def]
    · split at hx
      · rename_i heq
        exact ⟨(some.inj hx).symm, h.1, h.2, by rw [ho, hn, heq]⟩
      · cases hx
  · refine ⟨none, ?_, fun x hx => absurd hx (by simp)⟩
    simp only [if_neg h, bind_eq_bind, bind_some, Option.pure_def]

theorem Traced.insert {I J i j : Nat} {pending : Option Range}
    {hunks : List CharOperation} (h : Traced d I J i j pending hunks) (hj : 0 < j) (hJ : j ≤ J)
    (hlen : J ≤ d.new.length) :
    Traced d I J i (j - 1) (extendInsert (j - 1) j pending) hunks := by
  obtain ⟨ops, hflush, hstart, happly⟩ := h
  obtain ⟨c, hc⟩ : ∃ c, d.new[j - 1]? = some c := ⟨_, getElem?_eq_getElem (by omega)⟩
  have hbetween : between d.new (j - 1) J = c :: between d.new j J := by
    rw [between_pred (by omega) hlen hc, show j - 1 + 1 = j by omega]
  cases pending with
  | none =>
    obtain rfl : hunks = ops := some.inj hflush
    have hslice : newSlice d.new ⟨j - 1, j⟩ = some [c] := by
      have hb := @between_pred d.new (j - 1) j (by omega) (by omega) c hc
      rw [show j - 1 + 1 = j by omega, between_self] at hb
      rw [newSlice, if_pos (by dsimp only; omega)]
      exact congrArg some hb
    refine ⟨.insert [c] :: hunks, by rw [extendInsert, flushInsert, hslice]; rfl, fun r hr => ?_, ?_⟩
    · rw [← some.inj hr]
    · rw [applyOperations, happly, hbetween]
      rfl
  | some r =>
    have hr : r.start = j := hstart r rfl
    rw [flushInsert, map_eq_some_iff] at hflush
    obtain ⟨text, htext, rfl⟩ := hflush
    rw [newSlice] at htext
    split at htext
    · rename_i hle
      have hslice : newSlice d.new ⟨j - 1, r.stop⟩ = some (c :: text) := by
        have hb := @between_pred d.new (j - 1) r.stop (by omega) hle.2 c hc
        rw [show j - 1 + 1 = j by omega] at hb
        rw [newSlice, if_pos (by dsimp only; omega)]
        rw [← some.inj htext, hr]
        exact congrArg some hb
      refine ⟨.insert (c :: text) :: hunks, by rw [extendInsert, flushInsert, hslice]; rfl, fun r' hr' => ?_, ?_⟩
      · rw [← some.inj hr']
      · rw [applyOperations, map_eq_some_iff] at happly
        obtain ⟨q, hq, heq⟩ := happly
        rw [applyOperations, hq, hbetween, ← (Prod.mk.inj heq).1, ← (Prod.mk.inj heq).2]
        rfl
    · cases htext

section

variable {I J cols : Nat} (hm : d.scores.Shape (d.old.length + 1) cols)
include hm

/-- **Tracing back always ends**, at the place where the last trace began, with operations
that make the new text of the old one. -/
theorem backtrackFrom_spec (hI : I ≤ d.old.length) (hJ : J ≤ d.new.length)
    (hcols : J - d.newTextIx < cols) : ∀ (fuel i j : Nat) {pending : Option Range}
    {hunks : List CharOperation}, d.oldTextIx ≤ i → i ≤ I → d.newTextIx ≤ j → j ≤ J → i + j ≤ fuel →
      Traced d I J i j pending hunks →
      ∃ ops, backtrackFrom sc d fuel i j pending hunks = some ops ∧
        applyOperations ops (d.old.drop d.oldTextIx) =
          some (between d.new d.newTextIx J, d.old.drop I) := by
  intro fuel
  induction fuel with
  | zero =>
    intro i j pending hunks hi _ hj _ hfuel htraced
    obtain ⟨ops, hflush, -, happly⟩ := htraced
    have hend : (i, j) = (d.oldTextIx, d.newTextIx) := by
      rw [Prod.mk.injEq]
      omega
    rw [backtrackFrom, if_pos hend]
    cases hend
    exact ⟨ops, hflush, happly⟩
  | succ fuel ih =>
    intro i j pending hunks hi hiI hj hjJ hfuel htraced
    rw [backtrackFrom]
    by_cases hend : (i, j) = (d.oldTextIx, d.newTextIx)
    · rw [if_pos hend]
      obtain ⟨ops, hflush, -, happly⟩ := htraced
      cases hend
      exact ⟨ops, hflush, happly⟩
    · rw [if_neg hend]
      obtain ⟨equal, hsources, hequal⟩ := @sources_spec S d i j (by omega) (by omega)
      -- every cell that is looked at is in the matrix
      have hkey : ∀ x : Option (Nat × Nat), (∀ p, x = some p → p.1 ≤ i ∧ p.2 ≤ j) →
          ∃ k, keyOf d.scores d.newTextIx x = some k := by
        intro x hx
        cases x with
        | none => exact ⟨none, rfl⟩
        | some p =>
          obtain ⟨h1, h2⟩ := hx p rfl
          obtain ⟨v, hv⟩ := Matrix.get_some hm (show p.1 < d.old.length + 1 by omega)
            (show p.2 - d.newTextIx < cols by omega)
          exact ⟨some v, by rw [keyOf, hv]; rfl⟩
      obtain ⟨ka, hka⟩ := hkey (if d.newTextIx < j then some (i, j - 1) else none) (fun p hp => by
        split at hp
        · rw [← some.inj hp]; exact ⟨le_refl _, Nat.sub_le _ _⟩
        · exact absurd hp (by simp))
      obtain ⟨kb, hkb⟩ := hkey (if d.oldTextIx < i then some (i - 1, j) else none) (fun p hp => by
        split at hp
        · rw [← some.inj hp]; exact ⟨Nat.sub_le _ _, le_refl _⟩
        · exact absurd hp (by simp))
      obtain ⟨kc, hkc⟩ := hkey equal (fun p hp => by
        rw [(hequal p hp).1]; exact ⟨Nat.sub_le _ _, Nat.sub_le _ _⟩)
      have hsome : (if d.newTextIx < j then some (i, j - 1) else none).isSome = true ∨
          (if d.oldTextIx < i then some (i - 1, j) else none).isSome = true := by
        rw [Prod.mk.injEq] at hend
        by_cases h1 : d.newTextIx < j
        · exact .inl (by rw [if_pos h1]; rfl)
        · exact .inr (by rw [if_pos (by omega)]; rfl)
      obtain ⟨x, hmax, hx⟩ := @maxByKey_spec S sc d.scores d.newTextIx _ _ _ _ _ _ hka hkb hkc hsome
      simp only [hsources, hmax, bind_eq_bind, bind_some]
      rcases hx with hx | hx | hx
      · -- an insertion
        split at hx
        · rename_i hlt
          cases hx
          rw [if_pos ⟨rfl, rfl⟩]
          exact ih i (j - 1) hi hiI (by omega) (by omega) (by omega)
            (htraced.insert (by omega) hjJ hJ)
        · cases hx
      · -- a deletion
        split at hx
        · rename_i hlt
          cases hx
          obtain ⟨ops, hflush, -, happly⟩ := htraced
          obtain ⟨c, hc⟩ : ∃ c, d.old[i - 1]? = some c := ⟨_, getElem?_eq_getElem (by omega)⟩
          have hdrop := drop_pred (by omega) hc
          rw [if_neg (by dsimp only; omega), hflush]
          simp only [hc, bind_some, and_self, if_true]
          refine ih (i - 1) j (by omega) (by omega) hj hjJ (by omega) ⟨_, rfl, by simp, ?_⟩
          rw [hdrop, apply_pushDelete, happly]
        · cases hx
      · -- an equal character
        obtain ⟨rfl, hlt, hlt', heq⟩ := hequal x hx
        obtain ⟨ops, hflush, -, happly⟩ := htraced
        obtain ⟨c, hc⟩ : ∃ c, d.old[i - 1]? = some c := ⟨_, getElem?_eq_getElem (by omega)⟩
        have hdrop := drop_pred (by omega) hc
        have hbetween : between d.new (j - 1) J = c :: between d.new j J := by
          rw [between_pred (by omega) hJ (heq ▸ hc), show j - 1 + 1 = j by omega]
        rw [if_neg (by dsimp only; omega), hflush]
        simp only [hc, bind_some]
        rw [if_neg (by omega)]
        refine ih (i - 1) (j - 1) (by omega) (by omega) (by omega) (by omega) (by omega)
          ⟨_, rfl, by simp, ?_⟩
        rw [hdrop, apply_pushKeep, happly, hbetween]
        rfl

/-- **`backtrack` makes the new text of the old one**, from where the last one ended. -/
theorem backtrack_spec (hI : d.oldTextIx ≤ I ∧ I ≤ d.old.length)
    (hJ : d.newTextIx ≤ J ∧ J ≤ d.new.length) (hcols : J - d.newTextIx < cols) :
    ∃ ops, d.backtrack sc I J = some ops ∧ applyOperations ops (d.old.drop d.oldTextIx) =
        some (between d.new d.newTextIx J, d.old.drop I) :=
  backtrackFrom_spec hm hI.2 hJ.2 hcols (I + J) I J hI.1 (le_refl _) hJ.1 (le_refl _)
    (le_refl _) ⟨[], rfl, by simp, by rw [between_self]; rfl⟩

end

end

/-- What holds between pushes. -/
structure Inv (d : StreamingDiff S) : Prop where
  shape : ∃ cols, 0 < cols ∧ d.scores.Shape (d.old.length + 1) cols
  settled : d.oldTextIx ≤ d.old.length
  pushed : d.newTextIx = d.new.length

theorem start_spec (sc : Scoring S) (old : List Char) :
    ∃ d : StreamingDiff S, start sc old = some d ∧ d.Inv ∧ d.old = old ∧ d.new = [] ∧ d.oldTextIx = 0 := by
  obtain ⟨m, hm, hshape⟩ := foldlM_some (P := fun m : Matrix S => m.Shape (old.length + 1) 1)
    (f := fun m i => m.set i 0 (sc.deletionAt i)) (l := List.range (old.length + 1))
    (fun m i hi hm => Matrix.set_some hm (List.mem_range.mp hi) (Nat.succ_pos 0) _)
    (@Matrix.shape_resize S sc Matrix.new (old.length + 1) 1)
  refine ⟨⟨old, [], m, 0, 0, []⟩, ?_, ⟨⟨1, Nat.succ_pos 0, hshape⟩, Nat.zero_le _, rfl⟩, rfl, rfl, rfl⟩
  rw [start, hm]
  rfl

/-- **One push**: the operations make the pushed text of what is settled by it. -/
theorem pushNew_spec {d : StreamingDiff S} (h : d.Inv) (text : List Char) :
    ∃ d' ops, d.pushNew sc text = some (d', ops) ∧ d'.Inv ∧ d'.old = d.old ∧ d'.new = d.new ++ text ∧
      applyOperations ops (d.old.drop d.oldTextIx) = some (text, d.old.drop d'.oldTextIx) := by
  obtain ⟨cols, hpos, hshape⟩ := h.shape
  have hlen : (d.new ++ text).length - d.newTextIx = text.length := by
    rw [h.pushed, length_append]
    omega
  obtain ⟨m₁, hswap, hshape₁⟩ := @Matrix.swapColumns_some S sc d.scores _ _ 0 (d.scores.cols - 1) hshape hpos
    (by rw [hshape.cols_eq]; omega)
  obtain ⟨st, hcols, hst⟩ := foldlM_some
    (P := fun st : Matrix S × EqualRuns => st.1.Shape (d.old.length + 1) (text.length + 1))
    (f := scoreColumn sc d.old (d.new ++ text) d.newTextIx)
    (l := List.range' (d.newTextIx + 1) text.length)
    (s := (m₁.resize sc (d.old.length + 1) (text.length + 1),
      d.equalRuns.filter fun run => run.1.2 = d.newTextIx))
    (fun st j hj hst => by
      have := List.mem_range'_1.mp hj
      have := h.pushed
      exact scoreColumn_some hst ⟨by omega, by rw [length_append]; omega⟩ (by omega))
    (Matrix.shape_resize m₁ (d.old.length + 1) (text.length + 1))
  obtain ⟨best, hbest, hbounds⟩ := foldlM_some
    (P := fun best : S × Nat => d.oldTextIx ≤ best.2 ∧ best.2 ≤ d.old.length)
    (f := bestRow sc st.1 text.length)
    (l := List.range' d.oldTextIx (d.old.length + 1 - d.oldTextIx))
    (s := (sc.negInfinity, d.oldTextIx))
    (fun best i hi hb => by
      have := List.mem_range'_1.mp hi
      exact bestRow_some hst (Nat.lt_succ_self _) ⟨by omega, by omega⟩ (by omega) hb)
    ⟨le_refl _, h.settled⟩
  obtain ⟨ops, hback, happly⟩ := @backtrack_spec S sc
    { d with new := d.new ++ text, scores := st.1, equalRuns := st.2 } best.2 (d.new ++ text).length _
    hst hbounds ⟨by rw [h.pushed, length_append]; exact Nat.le_add_right _ _, le_refl _⟩
    (by dsimp only; omega)
  refine ⟨{ d with
      new := d.new ++ text
      scores := st.1
      equalRuns := st.2
      oldTextIx := best.2
      newTextIx := (d.new ++ text).length }, ops, ?_,
    ⟨⟨_, Nat.succ_pos _, hst⟩, hbounds.2, rfl⟩, rfl, rfl, ?_⟩
  · unfold pushNew
    rw [hswap]
    simp only [hlen, hcols, hbest, hback, bind_eq_bind, bind_some, Option.pure_def]
  · rw [happly]
    rw [between, take_length, h.pushed, drop_left]

theorem pushAll_spec : ∀ (texts : List (List Char)) {d : StreamingDiff S}, d.Inv →
    ∃ d' hunks, d.pushAll sc texts = some (d', hunks) ∧ d'.Inv ∧ d'.old = d.old ∧
      d'.new = d.new ++ texts.flatten ∧
      applyOperations hunks.flatten (d.old.drop d.oldTextIx) =
        some (texts.flatten, d.old.drop d'.oldTextIx) ∧
      ∀ k, ∃ rest, applyOperations (hunks.take k).flatten (d.old.drop d.oldTextIx) =
        some ((texts.take k).flatten, rest)
  | [], d, h => ⟨d, [], rfl, h, rfl, by simp, rfl, fun k => ⟨_, by simp [applyOperations]; rfl⟩⟩
  | text :: texts, d, h => by
      obtain ⟨d₁, ops, hpush, hinv₁, hold₁, hnew₁, happly₁⟩ := @pushNew_spec S sc d h text
      obtain ⟨d₂, hunks, hall, hinv₂, hold₂, hnew₂, happly₂, hk⟩ := pushAll_spec texts hinv₁
      rw [hold₁] at happly₂ hk
      refine ⟨d₂, ops :: hunks, ?_, hinv₂, hold₂.trans hold₁, ?_, ?_, fun k => ?_⟩
      · rw [pushAll, hpush]
        simp only [bind_eq_bind, bind_some, hall, Option.pure_def]
      · rw [hnew₂, hnew₁, flatten_cons, append_assoc]
      · rw [flatten_cons, flatten_cons]
        exact apply_append ops _ happly₁ happly₂
      · cases k with
        | zero => exact ⟨_, rfl⟩
        | succ k =>
          obtain ⟨rest, hrest⟩ := hk k
          refine ⟨rest, ?_⟩
          rw [take_succ_cons, take_succ_cons, flatten_cons, flatten_cons]
          exact apply_append ops _ happly₁ hrest

end StreamingDiff

/-- **The streaming diff loses nothing.** Whatever the scores, the old text and the pieces that
the new one comes in: nothing panics and every trace ends; all operations together use up the
old text at character boundaries and make the new one; and after every piece those so far make
what has been pushed. -/
theorem streaming_diff_lossless (sc : Scoring S) (old : List Char) (texts : List (List Char)) :
    ∃ d d' hunks last, StreamingDiff.start sc old = some d ∧
      d.pushAll sc texts = some (d', hunks) ∧ d'.finish sc = some last ∧
      applyOperations (hunks.flatten ++ last) old = some (texts.flatten, []) ∧
      ∀ k, ∃ rest, applyOperations (hunks.take k).flatten old = some ((texts.take k).flatten, rest) := by
  obtain ⟨d, hstart, hinv, hold, hnew, hix⟩ := StreamingDiff.start_spec sc old
  obtain ⟨d', hunks, hall, hinv', hold', hnew', happly, hk⟩ := @StreamingDiff.pushAll_spec S sc texts d hinv
  obtain ⟨cols, hpos, hshape⟩ := hinv'.shape
  obtain ⟨last, hlast, happly'⟩ := @StreamingDiff.backtrack_spec S sc d' d'.old.length d'.new.length cols
    hshape ⟨hinv'.settled, le_refl _⟩ ⟨le_of_eq hinv'.pushed, le_refl _⟩
    (by rw [hinv'.pushed]; omega)
  rw [hix, drop_zero, hold] at happly hk
  rw [hinv'.pushed, StreamingDiff.between_self, hold', hold] at happly'
  refine ⟨d, d', hunks, last, hstart, hall, hlast, ?_, hk⟩
  have := StreamingDiff.apply_append _ _ happly happly'
  rwa [append_nil, drop_length] at this

end

end SpkEditor
