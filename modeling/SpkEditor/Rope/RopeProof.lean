import SpkEditor.Rope.Rope

/-!
# Ropes are strings

Every operation on ropes gives the text that it gives on strings, never fails on bounds
that are boundaries, and leaves no chunk empty, none longer than its buffer and only the
last one short.

The texts of the chunks carry the argument: `Shape` is what holds of their lengths, and
every rope that is built has the chunks of such texts (`Rope.Holds`).
-/

namespace SpkEditor.Chunked

open List Option

variable {passed rest ts us : List (List Char)} {x y : List Char} {c : Cursor} {offset start stop : Nat}

theorem Boundary.zero (text : List Char) : Boundary text 0 := ⟨[], text, rfl, rfl⟩

theorem Boundary.cons {c : Char} {text : List Char} {i : Nat} (h : Boundary text i) :
    Boundary (c :: text) (c.utf8Size + i) := by
  obtain ⟨before, after, rfl, rfl⟩ := h
  exact ⟨c :: before, after, rfl, byteLen_cons ..⟩

section

variable {text : List Char} {n : Nat} (hn : n ≤ byteLen text)
include hn

theorem exists_boundary_above : ∃ i, n ≤ i ∧ i ≤ n + 3 ∧ Boundary text i := by
  induction text generalizing n with
  | nil =>
    obtain rfl : n = 0 := by simpa using hn
    exact ⟨0, by omega, by omega, .zero _⟩
  | cons c text ih =>
    have hle := c.utf8Size_le_four
    rw [byteLen_cons] at hn
    by_cases h0 : n = 0
    · exact ⟨0, by omega, by omega, .zero _⟩
    · by_cases hc : n ≤ c.utf8Size
      · exact ⟨c.utf8Size + 0, by omega, by omega, (Boundary.zero text).cons⟩
      · obtain ⟨i, h₁, h₂, hi⟩ := ih (n := n - c.utf8Size) (by omega)
        exact ⟨c.utf8Size + i, by omega, by omega, hi.cons⟩

theorem exists_boundary_below : ∃ i, i ≤ n ∧ n ≤ i + 3 ∧ Boundary text i := by
  induction text generalizing n with
  | nil =>
    obtain rfl : n = 0 := by simpa using hn
    exact ⟨0, by omega, by omega, .zero _⟩
  | cons c text ih =>
    have hle := c.utf8Size_le_four
    rw [byteLen_cons] at hn
    by_cases hc : n < c.utf8Size
    · exact ⟨0, by omega, by omega, .zero _⟩
    · obtain ⟨i, h₁, h₂, hi⟩ := ih (n := n - c.utf8Size) (by omega)
      exact ⟨c.utf8Size + i, by omega, by omega, hi.cons⟩

end

/-- The loop upwards stops at a boundary, and does not pass one. -/
theorem nextBoundary_spec {p : Nat → Bool} {fuel n i : Nat} (hni : n ≤ i) (hi : i ≤ n + fuel)
    (hp : p i = true) :
    p (nextBoundary p fuel n) = true ∧ n ≤ nextBoundary p fuel n ∧ nextBoundary p fuel n ≤ i := by
  induction fuel generalizing n with
  | zero =>
    obtain rfl : n = i := by omega
    exact ⟨hp, le_refl _, le_refl _⟩
  | succ fuel ih =>
    rw [nextBoundary]
    split
    · rename_i hn
      exact ⟨hn, le_refl _, hni⟩
    · rename_i hn
      have hne : n ≠ i := by
        intro h
        exact hn (h ▸ hp)
      obtain ⟨h₁, h₂, h₃⟩ := ih (n := n + 1) (by omega) (by omega)
      exact ⟨h₁, by omega, h₃⟩

theorem prevBoundary_spec {p : Nat → Bool} {n i : Nat} (hin : i ≤ n) (hp : p i = true) :
    p (prevBoundary p n) = true ∧ i ≤ prevBoundary p n ∧ prevBoundary p n ≤ n := by
  induction n with
  | zero =>
    obtain rfl : i = 0 := by omega
    exact ⟨hp, le_refl _, le_refl _⟩
  | succ n ih =>
    rw [prevBoundary]
    split
    · rename_i hn
      exact ⟨hn, hin, le_refl _⟩
    · rename_i hn
      have hne : i ≠ n + 1 := by
        intro h
        exact hn (h ▸ hp)
      obtain ⟨h₁, h₂, h₃⟩ := ih (by omega)
      exact ⟨h₁, h₂, by omega⟩

/-- The text of a chunk. -/
structure Piece (t : List Char) : Prop where
  ne_nil : t ≠ []
  le : byteLen t ≤ MAX_BASE

/-- The text of a chunk that others follow. -/
structure Full (t : List Char) : Prop extends Piece t where
  ge : MIN_BASE - 3 ≤ byteLen t

theorem Full.of_le {t : List Char} (hle : byteLen t ≤ MAX_BASE) (hge : MIN_BASE - 3 ≤ byteLen t) :
    Full t := by
  refine ⟨⟨?_, hle⟩, hge⟩
  intro h
  rw [h] at hge
  simp [MIN_BASE, MAX_BASE] at hge

/-- The texts of the chunks of a rope. -/
def Shape : List (List Char) → Prop
  | [] => True
  | [t] => Piece t
  | t :: u :: ts => Full t ∧ Shape (u :: ts)

theorem shape_nil : Shape [] := trivial

theorem shape_cons {t : List Char} (hne : ts ≠ []) : Shape (t :: ts) ↔ Full t ∧ Shape ts := by
  obtain ⟨u, us, rfl⟩ := exists_cons_of_ne_nil hne
  rfl

theorem shape_append (hne : us ≠ []) : Shape (ts ++ us) ↔ (∀ t ∈ ts, Full t) ∧ Shape us := by
  induction ts with
  | nil => simp
  | cons t ts ih =>
    rw [cons_append, shape_cons (by simp [hne]), ih, forall_mem_cons, and_assoc]

theorem shape_of_full (h : ∀ t ∈ ts, Full t) : Shape ts := by
  rcases eq_nil_or_concat' ts with rfl | ⟨init, last, rfl⟩
  · trivial
  · rw [shape_append (by simp)]
    exact ⟨fun t ht => h t (by simp [ht]), (h last (by simp)).toPiece⟩

theorem Shape.pieces (h : Shape ts) : ∀ t ∈ ts, Piece t := by
  rcases eq_nil_or_concat' ts with rfl | ⟨init, last, rfl⟩
  · simp
  · rw [shape_append (by simp)] at h
    intro t ht
    rcases List.mem_append.mp ht with ht | ht
    · exact (h.1 t ht).toPiece
    · rw [List.mem_singleton.mp ht]
      exact h.2

theorem Shape.left (h : Shape (ts ++ us)) : Shape ts := by
  by_cases hne : us = []
  · simpa [hne] using h
  · exact shape_of_full ((shape_append hne).mp h).1

theorem Shape.right (h : Shape (ts ++ us)) : Shape us := by
  by_cases hne : us = []
  · simp [hne, Shape]
  · exact ((shape_append hne).mp h).2

/-! ## Filling the last chunk -/

/-- How something is split between the last chunk and what follows it. -/
structure Fills (last x a b : List Char) : Prop where
  split : x = a ++ b
  le : byteLen (last ++ a) ≤ MAX_BASE
  /-- If something is left, the last chunk is not short. -/
  ge : b ≠ [] → MIN_BASE ≤ byteLen (last ++ a)
  /-- What is left is all of it, or comes from more than a chunk. -/
  rest : b ≠ [] → a = [] ∧ MIN_BASE ≤ byteLen last ∨ MAX_BASE < byteLen last + byteLen x ∧
    byteLen (last ++ a) ≤ MIN_BASE + 3

section

variable {last : List Char} (hlast : byteLen last ≤ MAX_BASE)
include hlast

theorem splitIx_spec {p : Nat → Bool} (hp : ∀ i, p i = true ↔ Boundary x i) :
    ∃ a b, splitIx (byteLen last) (byteLen x) p = byteLen a ∧ Fills last x a b := by
  rw [splitIx]
  by_cases hfits : byteLen last + byteLen x ≤ MAX_BASE
  · refine ⟨x, [], by rw [if_pos hfits], by simp, ?_, by simp, by simp⟩
    rw [byteLen_append]
    exact hfits
  · rw [if_neg hfits]
    by_cases hshort : MIN_BASE ≤ byteLen last
    · -- the last chunk is long enough and gets nothing
      refine ⟨[], x, ?_, rfl, by simpa using hlast, fun _ => by simpa using hshort,
        fun _ => .inl ⟨rfl, hshort⟩⟩
      have hzero := (nextBoundary_spec (p := p) (le_refl 0)
        (show 0 ≤ 0 + byteLen x by omega) ((hp 0).mpr (.zero x))).2.2
      rw [Nat.sub_eq_zero_of_le hshort, Nat.zero_min, byteLen_nil]
      omega
    · have hmin : min (MIN_BASE - byteLen last) (byteLen x) = MIN_BASE - byteLen last := by
        simp only [MIN_BASE, MAX_BASE] at hfits hshort ⊢
        omega
      have hlen : MIN_BASE - byteLen last ≤ byteLen x := by omega
      obtain ⟨i, h₁, h₂, hi⟩ := exists_boundary_above hlen
      obtain ⟨before, after, hx, hbefore⟩ := id hi
      have hile : i ≤ byteLen x := by
        rw [hx, byteLen_append]
        omega
      obtain ⟨hb, h₃, h₄⟩ := nextBoundary_spec (p := p) h₁
        (show i ≤ MIN_BASE - byteLen last + byteLen x by omega) ((hp i).mpr hi)
      obtain ⟨a, b, rfl, ha⟩ := (hp _).mp hb
      rw [hmin]
      refine ⟨a, b, ha.symm, rfl, ?_, ?_, ?_⟩
      · rw [byteLen_append]
        simp only [MIN_BASE, MAX_BASE] at *
        omega
      · intro _
        rw [byteLen_append]
        omega
      · intro _
        refine .inr ⟨by omega, ?_⟩
        rw [byteLen_append]
        omega

theorem fillStr_spec :
    ∃ a b, fillStr (chunkOf last) x = some (chunkOf (last ++ a), b) ∧ Fills last x a b := by
  obtain ⟨a, b, hix, hfills⟩ := splitIx_spec (x := x) hlast fun i => isCharBoundary_iff
  refine ⟨a, b, ?_, hfills⟩
  have hsplit := hfills.split
  subst hsplit
  have hle := hfills.le
  rw [byteLen_append] at hle
  rw [fillStr, chunkOf_len, hix, strSplitAt_append, bind_some, pushStr_chunkOf hle]
  rfl

theorem fillChunk_spec (hx : byteLen x ≤ MAX_BASE) :
    ∃ a b, fillChunk (chunkOf last) (chunkOf x) = some (chunkOf (last ++ a), chunkOf b) ∧
      Fills last x a b := by
  obtain ⟨a, b, hix, hfills⟩ := splitIx_spec (x := x) hlast (isCharBoundary_chunkOf hx)
  refine ⟨a, b, ?_, hfills⟩
  have hsplit := hfills.split
  subst hsplit
  have hle := hfills.le
  rw [byteLen_append] at hle
  rw [fillChunk, chunkOf_len, chunkOf_len, hix, splitAt_chunkOf hx, bind_some, append_chunkOf hle]
  rfl

end

def ropeOf (ts : List (List Char)) : Rope := ⟨ts.map chunkOf⟩

@[simp] theorem text_ropeOf (ts : List (List Char)) : (ropeOf ts).text = ts.flatten := by
  simp [ropeOf, Rope.text, flatMap_map, flatMap_id']

@[simp] theorem len_ropeOf (ts : List (List Char)) : (ropeOf ts).len = byteLen ts.flatten := by
  rw [ropeOf, Rope.len, List.map_map]
  induction ts with
  | nil => rfl
  | cons t ts ih => simp [byteLen_append, ih]

theorem updateLast_append {α β : Type} (init : List α) (a : α) (x : β) (f : α → β → Option (α × β)) :
    updateLast (init ++ [a]) x f = (f a x).map fun r => (init ++ [r.1], r.2) := by
  simp [updateLast]

theorem mapM_new {ps : List (List Char)} (h : ∀ p ∈ ps, Piece p) :
    ps.mapM Chunk.new = some (ps.map chunkOf) := by
  induction ps with
  | nil => rfl
  | cons p ps ih =>
    rw [forall_mem_cons] at h
    rw [mapM_cons, new_eq h.1.le, ih h.2]
    rfl

/-- **Cutting**: chunks as long as they may be, so only the last one is short. -/
theorem cutChunks_spec {fuel : Nat} (hfuel : x.length ≤ fuel) :
    ∃ ps, cutChunks fuel x = some ps ∧ ps.flatten = x ∧ Shape ps ∧
      (MAX_BASE - 3) * ps.length ≤ byteLen x + (MAX_BASE - 4) := by
  induction fuel generalizing x with
  | zero =>
    obtain rfl : x = [] := List.length_eq_zero_iff.mp (by omega)
    exact ⟨[], rfl, rfl, trivial, by simp⟩
  | succ fuel ih =>
    by_cases hx : x = []
    · subst hx
      exact ⟨[], rfl, rfl, trivial, by simp⟩
    · have hpos := byteLen_pos hx
      rw [cutChunks.eq_def]
      cases x with
      | nil => exact absurd rfl hx
      | cons c x =>
        simp only
        -- where the first chunk ends
        obtain ⟨i, h₁, h₂, hi⟩ : ∃ i, i ≤ min MAX_BASE (byteLen (c :: x)) ∧
            (i = byteLen (c :: x) ∨ MAX_BASE < byteLen (c :: x) ∧ MAX_BASE - 3 ≤ i) ∧
            Boundary (c :: x) i := by
          by_cases hfits : byteLen (c :: x) ≤ MAX_BASE
          · exact ⟨byteLen (c :: x), by omega, .inl rfl, c :: x, [], by simp, rfl⟩
          · obtain ⟨i, h₁, h₂, hi⟩ := exists_boundary_below (Nat.le_of_not_le hfits)
            exact ⟨i, by omega, .inr ⟨by omega, by omega⟩, hi⟩
        obtain ⟨hb, h₃, h₄⟩ := prevBoundary_spec (p := isCharBoundary (c :: x)) h₁
          (isCharBoundary_iff.mpr hi)
        obtain ⟨a, b, hab, ha⟩ := isCharBoundary_iff.mp hb
        rw [← ha] at h₃ h₄ ⊢
        have hlen : byteLen (c :: x) = byteLen a + byteLen b := by rw [hab, byteLen_append]
        have hane : a ≠ [] := by
          intro hnil
          rw [hnil, byteLen_nil] at h₃
          simp only [MAX_BASE] at *
          omega
        have hblen : b.length ≤ fuel := by
          have h₅ := congrArg List.length hab
          have h₆ := List.length_pos_iff.mpr hane
          rw [length_append] at h₅
          omega
        obtain ⟨ps, hps, hflat, hshape, hcount⟩ := ih hblen
        refine ⟨a :: ps, ?_, ?_, ?_, ?_⟩
        · rw [hab, strSplitAt_append, bind_some, hps]
          rfl
        · rw [flatten_cons, hflat, hab]
        · by_cases hps' : ps = []
          · subst hps'
            exact ⟨hane, by omega⟩
          · rw [shape_cons hps']
            refine ⟨Full.of_le (by omega) ?_, hshape⟩
            -- something is left, so the chunk was full
            have hbne : b ≠ [] := by
              intro hnil
              rw [hnil] at hflat
              obtain ⟨q, qs, rfl⟩ := exists_cons_of_ne_nil hps'
              have hq := (hshape.pieces q (by simp)).ne_nil
              simp [hq] at hflat
            have hbpos := byteLen_pos hbne
            simp only [MIN_BASE, MAX_BASE] at *
            omega
        · rw [length_cons, hlen]
          by_cases hbne : b = []
          · have hps' : ps = [] := by
              rw [hbne, byteLen_nil] at hcount
              simp only [MAX_BASE] at hcount
              exact List.length_eq_zero_iff.mp (by omega)
            have hapos := byteLen_pos hane
            simp only [hps', hbne, byteLen_nil, length_nil, MAX_BASE]
            omega
          · have hbpos := byteLen_pos hbne
            simp only [MAX_BASE] at *
            omega

theorem pushLarge_spec (hts : ∀ t ∈ ts, Full t) :
    ∃ ps, (ropeOf ts).pushLarge x = some (ropeOf (ts ++ ps)) ∧ ps.flatten = x ∧ Shape (ts ++ ps) := by
  obtain ⟨ps, hcut, hflat, hshape, -⟩ := cutChunks_spec (le_refl x.length)
  refine ⟨ps, ?_, hflat, ?_⟩
  · rw [Rope.pushLarge, hcut, bind_some, mapM_new hshape.pieces]
    simp [ropeOf]
  · by_cases hps : ps = []
    · rw [hps, append_nil]
      exact shape_of_full hts
    · exact (shape_append hps).mpr ⟨hts, hshape⟩

theorem push_rest (hx : x ≠ []) (hts : ∀ t ∈ ts, Full t) :
    ∃ ps, (if NUM_CHUNKS * MAX_BASE - NUM_CHUNKS * 4 < byteLen x then (ropeOf ts).pushLarge x
      else (cutChunks x.length x).bind fun newChunks =>
        if newChunks.length ≤ NUM_CHUNKS then
          (newChunks.mapM Chunk.new).map fun newChunks => (⟨(ropeOf ts).chunks ++ newChunks⟩ : Rope)
        else none) = some (ropeOf (ts ++ ps)) ∧ ps.flatten = x ∧ Shape (ts ++ ps) := by
  by_cases hlarge : NUM_CHUNKS * MAX_BASE - NUM_CHUNKS * 4 < byteLen x
  · simp only [if_pos hlarge]
    exact pushLarge_spec hts
  · obtain ⟨ps, hcut, hflat, hshape, hcount⟩ := cutChunks_spec (le_refl x.length)
    have hroom : ps.length ≤ NUM_CHUNKS := by
      simp only [NUM_CHUNKS, MAX_BASE] at *
      omega
    have hps : ps ≠ [] := by
      intro hnil
      exact hx (by rw [← hflat, hnil]; rfl)
    refine ⟨ps, ?_, hflat, (shape_append hps).mpr ⟨hts, hshape⟩⟩
    rw [if_neg hlarge, hcut, bind_some, if_pos hroom, mapM_new hshape.pieces]
    simp [ropeOf]

theorem push_spec (hts : Shape ts) (x : List Char) :
    ∃ us, (ropeOf ts).push x = some (ropeOf us) ∧ us.flatten = ts.flatten ++ x ∧ Shape us := by
  rcases eq_nil_or_concat' ts with rfl | ⟨init, last, rfl⟩
  · by_cases hx : x = []
    · subst hx
      exact ⟨[], rfl, rfl, trivial⟩
    · obtain ⟨ps, hpush, hflat, hshape⟩ := push_rest hx (forall_mem_nil _)
      refine ⟨ps, ?_, by simpa using hflat, hshape⟩
      have hlast : updateLast (ropeOf []).chunks x fillStr = some ((ropeOf []).chunks, x) := rfl
      rw [Rope.push, hlast, bind_some]
      simp only [hx, if_false]
      exact hpush
  · obtain ⟨hinit, hlast⟩ := (shape_append (by simp)).mp hts
    obtain ⟨a, b, hfill, hfills⟩ := fillStr_spec (x := x) hlast.le
    have hlast' : updateLast (ropeOf (init ++ [last])).chunks x fillStr =
        some ((ropeOf (init ++ [last ++ a])).chunks, b) := by
      simp only [ropeOf, map_append, map_cons, map_nil]
      rw [updateLast_append, hfill]
      rfl
    have hne : last ++ a ≠ [] := by simp [hlast.ne_nil]
    rw [Rope.push, hlast', bind_some]
    by_cases hb : b = []
    · subst hb
      refine ⟨init ++ [last ++ a], by simp [ropeOf], ?_, ?_⟩
      · rw [hfills.split]
        simp
      · exact (shape_append (by simp)).mpr ⟨hinit, hne, hfills.le⟩
    · have hfull : ∀ t ∈ init ++ [last ++ a], Full t := by
        intro t ht
        rcases List.mem_append.mp ht with ht | ht
        · exact hinit t ht
        · rw [List.mem_singleton.mp ht]
          exact Full.of_le hfills.le (le_trans (Nat.sub_le ..) (hfills.ge hb))
      obtain ⟨ps, hpush, hflat, hshape⟩ := push_rest hb hfull
      simp only [hb, if_false]
      refine ⟨init ++ [last ++ a] ++ ps, hpush, ?_, hshape⟩
      rw [flatten_append, hflat, hfills.split]
      simp

/-- **What `push_chunk` does**: the chunks it leaves are those of a rope, and if what is
pushed is not short, others may follow it. -/
theorem pushChunk_spec (hts : Shape ts) (hx : byteLen x ≤ MAX_BASE) :
    ∃ us, (ropeOf ts).pushChunk (chunkOf x) = some (ropeOf us) ∧ us.flatten = ts.flatten ++ x ∧
      Shape us ∧ (MIN_BASE - 3 ≤ byteLen x → ∀ u ∈ us, Full u) := by
  rcases eq_nil_or_concat' ts with rfl | ⟨init, last, rfl⟩
  · have hlast : updateLast (ropeOf []).chunks (chunkOf x) fillChunk = some ([], chunkOf x) := rfl
    rw [Rope.pushChunk, hlast, bind_some]
    by_cases hnil : x = []
    · subst hnil
      exact ⟨[], if_pos rfl, rfl, trivial, by simp⟩
    · refine ⟨[x], (if_neg hnil).trans ?_, by simp, ⟨hnil, hx⟩, ?_⟩
      · rw [into_chunkOf hx]
        rfl
      · intro hge u hu
        rw [List.mem_singleton.mp hu]
        exact Full.of_le hx hge
  · obtain ⟨hinit, hlast⟩ := (shape_append (by simp)).mp hts
    obtain ⟨a, b, hfill, hfills⟩ := fillChunk_spec (x := x) hlast.le hx
    have hlast' : updateLast (ropeOf (init ++ [last])).chunks (chunkOf x) fillChunk =
        some ((ropeOf (init ++ [last ++ a])).chunks, chunkOf b) := by
      simp only [ropeOf, map_append, map_cons, map_nil]
      rw [updateLast_append, hfill]
      rfl
    have hne : last ++ a ≠ [] := by simp [hlast.ne_nil]
    have hxlen : byteLen x = byteLen a + byteLen b := by rw [hfills.split, byteLen_append]
    have hle := hfills.le
    rw [Rope.pushChunk, hlast', bind_some]
    by_cases hb : b = []
    · subst hb
      refine ⟨init ++ [last ++ a], if_pos rfl, ?_, ?_, ?_⟩
      · rw [hfills.split]
        simp
      · exact (shape_append (by simp)).mpr ⟨hinit, hne, hfills.le⟩
      · intro hge u hu
        rcases List.mem_append.mp hu with hu | hu
        · exact hinit u hu
        · rw [List.mem_singleton.mp hu]
          rw [byteLen_nil] at hxlen
          exact Full.of_le hfills.le (by rw [byteLen_append]; omega)
    · have hlastFull : Full (last ++ a) :=
        Full.of_le hfills.le (le_trans (Nat.sub_le ..) (hfills.ge hb))
      have hble : byteLen b ≤ MAX_BASE := by omega
      refine ⟨init ++ [last ++ a, b], (if_neg hb).trans ?_, ?_, ?_, ?_⟩
      · rw [into_chunkOf hble]
        simp [ropeOf]
      · rw [hfills.split]
        simp
      · rw [shape_append (by simp)]
        exact ⟨hinit, hlastFull, hb, hble⟩
      · intro hge u hu
        rcases List.mem_append.mp hu with hu | hu
        · exact hinit u hu
        · simp only [mem_cons, not_mem_nil, or_false] at hu
          rcases hu with rfl | rfl
          · exact hlastFull
          · refine Full.of_le hble ?_
            -- it got all of it, or there was more than fits one chunk
            rcases hfills.rest hb with ⟨ha, -⟩ | ⟨hmore, hfilled⟩
            · rw [ha, byteLen_nil] at hxlen
              omega
            · rw [byteLen_append] at hfilled
              simp only [MIN_BASE, MAX_BASE] at *
              omega

theorem append_spec (hts : Shape ts) (hus : Shape us) :
    ∃ vs, (ropeOf ts).append (ropeOf us) = some (ropeOf vs) ∧ vs.flatten = ts.flatten ++ us.flatten ∧
      Shape vs := by
  cases us with
  | nil => exact ⟨ts, by simp [Rope.append, ropeOf], by simp, hts⟩
  | cons x us =>
    have hx := hus.pieces x (by simp)
    rw [Rope.append]
    simp only [ropeOf, map_cons]
    split
    · obtain ⟨vs, hpush, hflat, hshape, hfull⟩ := pushChunk_spec hts hx.le
      refine ⟨vs ++ us, ?_, ?_, ?_⟩
      · rw [ropeOf] at hpush
        rw [hpush]
        simp [ropeOf]
      · simp [hflat]
      · by_cases hne : us = []
        · rw [hne, append_nil]
          exact hshape
        · obtain ⟨hxfull, hus'⟩ := (shape_cons hne).mp hus
          exact (shape_append hne).mpr ⟨hfull hxfull.ge, hus'⟩
    · rename_i hlong
      simp only [Bool.or_eq_true, not_or] at hlong
      refine ⟨ts ++ x :: us, by simp, by simp, (shape_append (by simp)).mpr ⟨?_, hus⟩⟩
      -- the last chunk is long enough to be followed
      rcases eq_nil_or_concat' ts with rfl | ⟨init, last, rfl⟩
      · simp
      · obtain ⟨hinit, hlast⟩ := (shape_append (by simp)).mp hts
        have hge : MIN_BASE ≤ byteLen last := by
          have hnot := hlong.1
          rw [map_append, map_singleton, List.getLast?_concat, any_some, Bool.not_eq_true] at hnot
          exact Nat.le_of_not_lt (of_decide_eq_false hnot)
        intro t ht
        rcases List.mem_append.mp ht with ht | ht
        · exact hinit t ht
        · rw [List.mem_singleton.mp ht]
          exact Full.of_le hlast.le (le_trans (Nat.sub_le ..) hge)

theorem ofStr_spec (x : List Char) : ∃ us, Rope.ofStr x = some (ropeOf us) ∧ us.flatten = x ∧ Shape us := by
  obtain ⟨us, hpush, hflat, hshape⟩ := push_spec shape_nil x
  exact ⟨us, hpush, by simpa using hflat, hshape⟩

theorem pushFront_spec (hts : Shape ts) (x : List Char) :
    ∃ us, (ropeOf ts).pushFront x = some (ropeOf us) ∧ us.flatten = x ++ ts.flatten ∧ Shape us := by
  have hslow : ∃ us, (Rope.ofStr x).bind (·.append (ropeOf ts)) = some (ropeOf us) ∧
      us.flatten = x ++ ts.flatten ∧ Shape us := by
    obtain ⟨us, hof, hflat, hshape⟩ := ofStr_spec x
    obtain ⟨vs, happ, hflat', hshape'⟩ := append_spec hshape hts
    exact ⟨vs, by rw [hof, bind_some, happ], by rw [hflat', hflat], hshape'⟩
  rw [Rope.pushFront]
  by_cases hx : x = []
  · subst hx
    exact ⟨ts, by simp, by simp, hts⟩
  · rw [if_neg hx]
    by_cases hlen : (ropeOf ts).len = 0
    · rw [if_pos hlen]
      have hnil : ts.flatten = [] := byteLen_eq_zero.mp (by simpa using hlen)
      obtain ⟨us, hpush, hflat, hshape⟩ := push_spec hts x
      exact ⟨us, hpush, by simp [hflat, hnil], hshape⟩
    · rw [if_neg hlen]
      cases ts with
      | nil => simp at hlen
      | cons t ts =>
        simp only [ropeOf, map_cons, chunkOf_len] at hslow ⊢
        split
        · rename_i hfits
          rw [prependStr_chunkOf (by omega)]
          refine ⟨(x ++ t) :: ts, by simp, by simp, ?_⟩
          by_cases hne : ts = []
          · subst hne
            exact ⟨by simp [hx], by rw [byteLen_append]; omega⟩
          · rw [shape_cons hne] at hts ⊢
            have hge := hts.1.ge
            refine ⟨Full.of_le (by rw [byteLen_append]; omega) ?_, hts.2⟩
            rw [byteLen_append]
            omega
        · exact hslow

/-! ## Cursors -/

theorem seekFrom_spec {target : Nat} (h₁ : start ≤ target)
    (h₂ : target ≤ start + byteLen ts.flatten) :
    ∃ a b, ts = a ++ b ∧ ChunkCursor.seekFrom target start (ts.map chunkOf) =
        (a.map chunkOf, ⟨start + byteLen a.flatten, b.map chunkOf⟩) ∧
      start + byteLen a.flatten ≤ target ∧
      ∀ t b', b = t :: b' → target < start + byteLen a.flatten + byteLen t := by
  induction ts generalizing start with
  | nil => exact ⟨[], [], rfl, rfl, by simpa using h₁, by simp⟩
  | cons t ts ih =>
    simp only [map_cons, ChunkCursor.seekFrom]
    by_cases hpass : start + (chunkOf t).len ≤ target
    · rw [if_pos hpass]
      rw [chunkOf_len] at hpass ⊢
      rw [flatten_cons, byteLen_append] at h₂
      obtain ⟨a, b, rfl, hseek, hle, hlt⟩ := ih hpass (by omega)
      refine ⟨t :: a, b, rfl, ?_, ?_, ?_⟩
      · rw [hseek]
        simp [byteLen_append, add_assoc]
      · rw [flatten_cons, byteLen_append]
        omega
      · intro u b' hb
        have := hlt u b' hb
        rw [flatten_cons, byteLen_append]
        omega
    · rw [if_neg hpass]
      refine ⟨[], t :: ts, rfl, rfl, by simpa using h₁, ?_⟩
      intro u b' hb
      obtain ⟨rfl, -⟩ := List.cons.inj hb
      simpa using hpass

/-- The end of a range behind a chunk: whole chunks are passed, and a part of the one that it ends in. -/
theorem next_slice_cut {t z : List Char}
    (hle : ∀ u ∈ rest, byteLen u ≤ MAX_BASE) (hrest : rest.flatten = y ++ z)
    (hstop : stop = byteLen passed.flatten + byteLen t + byteLen y) :
    ∃ a b y₂, rest = a ++ b ∧ y = a.flatten ++ y₂ ∧
      (ChunkCursor.mk (byteLen passed.flatten) ((t :: rest).map chunkOf)).next.slice stop =
        (a.map chunkOf, ⟨byteLen (passed ++ t :: a).flatten, b.map chunkOf⟩) ∧
      byteLen (passed ++ t :: a).flatten ≤ stop ∧
      stop ≤ byteLen (passed ++ t :: a).flatten + byteLen (b.head?.getD []) ∧
      (b = [] ∧ y₂ = [] ∨ ∃ e b', b = e :: b' ∧ byteLen y₂ ≤ MAX_BASE ∧
        ChunkSlice.slice (chunkOf e) 0 (stop - byteLen (passed ++ t :: a).flatten) = some (chunkOf y₂)) := by
  have hlen : byteLen rest.flatten = byteLen y + byteLen z := by rw [hrest, byteLen_append]
  obtain ⟨a, b, rfl, hseek, hge, hlt⟩ :=
    seekFrom_spec (show byteLen passed.flatten + byteLen t ≤ stop by omega)
      (show stop ≤ byteLen passed.flatten + byteLen t + byteLen rest.flatten by omega)
  -- what is passed is the beginning of what is wanted
  obtain ⟨y₂, rfl, hb⟩ : ∃ m, y = a.flatten ++ m ∧ b.flatten = m ++ z := by
    refine exists_append_of_byteLen_le ?_ (by omega)
    rw [← flatten_append, hrest]
  have hplen : byteLen (passed ++ t :: a).flatten = byteLen passed.flatten + byteLen t + byteLen a.flatten := by
    simp [byteLen_append, add_assoc]
  rw [byteLen_append] at hstop
  refine ⟨a, b, y₂, rfl, rfl, by rw [hplen]; exact hseek, by omega, ?_⟩
  cases b with
  | nil =>
    obtain ⟨rfl, -⟩ := List.append_eq_nil_iff.mp hb.symm
    rw [byteLen_nil] at hstop
    exact ⟨by omega, .inl ⟨rfl, rfl⟩⟩
  | cons e b =>
    have hend := hlt e b rfl
    obtain ⟨e₂, rfl, -⟩ := exists_append_of_byteLen_le hb.symm (by omega)
    have hpiece : byteLen (y₂ ++ e₂) ≤ MAX_BASE := hle _ (by simp)
    have hcut : ChunkSlice.slice (chunkOf (y₂ ++ e₂)) 0 (byteLen y₂) = some (chunkOf y₂) := by
      simpa using slice_chunkOf (a := []) (b := y₂) (c := e₂) (by simpa using hpiece)
    rw [show stop - byteLen (passed ++ t :: a).flatten = byteLen y₂ by omega]
    refine ⟨?_, .inr ⟨_, b, rfl, by omega, hcut⟩⟩
    rw [List.head?_cons, getD_some, byteLen_append]
    omega

structure Cursor.At (ts : List (List Char)) (c : Cursor) (passed rest : List (List Char)) : Prop where
  rope : c.rope = ropeOf ts
  split : ts = passed ++ rest
  chunks : c.chunks = ⟨byteLen passed.flatten, rest.map chunkOf⟩
  ge : byteLen passed.flatten ≤ c.offset
  le : c.offset ≤ byteLen passed.flatten + byteLen (rest.head?.getD [])

theorem Cursor.At.not_lt_start (h : c.At ts passed rest) : ¬ c.offset < c.chunks.start := by
  rw [h.chunks]
  exact Nat.not_lt.mpr h.ge

theorem at_of_seekFrom (hts : ts = passed ++ rest)
    (h₁ : byteLen passed.flatten ≤ offset) (h₂ : offset ≤ byteLen ts.flatten) :
    ∃ p r, Cursor.At ts ⟨ropeOf ts, (ChunkCursor.mk (byteLen passed.flatten) (rest.map chunkOf)).seekForward offset,
      offset⟩ p r := by
  have htotal : byteLen ts.flatten = byteLen passed.flatten + byteLen rest.flatten := by
    rw [hts, flatten_append, byteLen_append]
  obtain ⟨a, b, rfl, hseek, hle, hlt⟩ :=
    seekFrom_spec h₁ (show offset ≤ byteLen passed.flatten + byteLen rest.flatten by omega)
  refine ⟨passed ++ a, b, rfl, by rw [hts, append_assoc], ?_, ?_, ?_⟩
  · simp only [ChunkCursor.seekForward, ChunkCursor.slice, hseek]
    rw [flatten_append, byteLen_append]
  · rw [flatten_append, byteLen_append]
    exact hle
  · simp only [flatten_append, byteLen_append]
    cases b with
    | nil =>
      simp only [append_nil] at htotal
      omega
    | cons t b =>
      have := hlt t b rfl
      simp only [List.head?_cons, getD_some]
      omega

theorem Cursor.new_at (ts : List (List Char)) (h : offset ≤ byteLen ts.flatten) :
    ∃ p r, Cursor.At ts (Cursor.new (ropeOf ts) offset) p r :=
  at_of_seekFrom (nil_append ts).symm (Nat.zero_le _) h

theorem Cursor.At.seekForward
    (h : c.At ts passed rest) (h₁ : c.offset ≤ stop) (h₂ : stop ≤ byteLen ts.flatten) :
    ∃ c' p r, c.seekForward stop = some c' ∧ c'.At ts p r ∧ c'.offset = stop := by
  have hlen : c.rope.len = byteLen ts.flatten := by rw [h.rope, len_ropeOf]
  obtain ⟨p, r, hat⟩ := at_of_seekFrom h.split (le_trans h.ge h₁) h₂
  refine ⟨_, p, r, ?_, hat, rfl⟩
  rw [Cursor.seekForward, if_pos ⟨h₁, by omega⟩, h.rope, h.chunks]

/-- The second half of a slice: whole chunks, and the beginning of the one it ends in. -/
theorem sliceRest_spec {t z : List Char}
    (hts : Shape (passed ++ t :: rest)) (hus : Shape us) (hrest : rest.flatten = y ++ z)
    (hstop : stop = byteLen passed.flatten + byteLen t + byteLen y) :
    ∃ vs p r, Cursor.sliceRest ⟨byteLen passed.flatten, (t :: rest).map chunkOf⟩ stop (ropeOf us) =
        some (ropeOf vs, ⟨byteLen p.flatten, r.map chunkOf⟩) ∧
      vs.flatten = us.flatten ++ y ∧ Shape vs ∧ passed ++ t :: rest = p ++ r ∧
      byteLen p.flatten ≤ stop ∧ stop ≤ byteLen p.flatten + byteLen (r.head?.getD []) := by
  have hshape : Shape rest := (show Shape ((passed ++ [t]) ++ rest) by simpa using hts).right
  obtain ⟨a, b, y₂, rfl, rfl, hnext, h₁, h₂, hb⟩ :=
    next_slice_cut (fun u hu => (hshape.pieces u hu).le) hrest hstop
  obtain ⟨vs, happ, hvflat, hvshape⟩ := append_spec hus hshape.left
  have happ' : (ropeOf us).append ⟨a.map chunkOf⟩ = some (ropeOf vs) := happ
  rcases hb with ⟨rfl, rfl⟩ | ⟨e, b, rfl, hy₂, hslice⟩
  · refine ⟨vs, passed ++ t :: a, [], ?_, by rw [hvflat]; simp, hvshape, by simp, h₁, h₂⟩
    rw [Cursor.sliceRest, hnext]
    simp only [happ', bind_some]
    rfl
  · obtain ⟨ws, hpush, hwflat, hwshape, -⟩ := pushChunk_spec hvshape hy₂
    refine ⟨ws, passed ++ t :: a, e :: b, ?_, by rw [hwflat, hvflat, append_assoc], hwshape, by simp,
      h₁, h₂⟩
    rw [Cursor.sliceRest, hnext]
    simp only [happ', bind_some, map_cons, hslice, hpush]
    rfl

theorem Cursor.At.moved (h : c.At ts passed rest) {n : Nat}
    (h₁ : c.offset ≤ n) (h₂ : n ≤ byteLen passed.flatten + byteLen (rest.head?.getD [])) :
    Cursor.At ts { c with offset := n } passed rest :=
  ⟨h.rope, h.split, h.chunks, le_trans h.ge h₁, h₂⟩

/-- Where a range is, seen from a cursor at the front of it: at the end of the rope, or the chunk that the
cursor is at has the beginning of it, and what is left is behind that chunk. -/
theorem Cursor.At.range (h : c.At ts passed rest)
    (hts : ∀ t ∈ ts, byteLen t ≤ MAX_BASE) {z : List Char} (htext : ts.flatten = x ++ y ++ z)
    (hx : byteLen x = c.offset) :
    rest = [] ∧ y = [] ∧ ¬ c.chunks.stop < byteLen (x ++ y) ∨
      ∃ t rest' y₁ y₂, rest = t :: rest' ∧ y = y₁ ++ y₂ ∧ byteLen y₁ ≤ MAX_BASE ∧
        ChunkSlice.slice (chunkOf t) (c.offset - c.chunks.start)
          (min (byteLen (x ++ y)) c.chunks.stop - c.chunks.start) = some (chunkOf y₁) ∧
        (c.chunks.stop < byteLen (x ++ y) ∧ rest'.flatten = y₂ ++ z ∧
            byteLen (x ++ y) = byteLen passed.flatten + byteLen t + byteLen y₂ ∨
          ¬ c.chunks.stop < byteLen (x ++ y) ∧ y₂ = [] ∧
            byteLen (x ++ y) ≤ byteLen passed.flatten + byteLen t) := by
  have hge := h.ge
  have hle := h.le
  have hsplit := h.split
  have hxy := byteLen_append x y
  cases rest with
  | nil =>
    have htotal : byteLen ts.flatten = byteLen passed.flatten := by rw [hsplit]; simp
    rw [htext, byteLen_append, byteLen_append] at htotal
    refine .inl ⟨rfl, byteLen_eq_zero.mp (by omega), ?_⟩
    rw [h.chunks]
    simp only [ChunkCursor.stop, map_nil]
    omega
  | cons t rest =>
    simp only [List.head?_cons, getD_some] at hle
    have hstop : c.chunks.stop = byteLen passed.flatten + byteLen t := by rw [h.chunks]; rfl
    have hstart : c.chunks.start = byteLen passed.flatten := by rw [h.chunks]
    have hpiece := hts t (by simp [hsplit])
    -- the offset is in the chunk
    obtain ⟨x₁, rfl, hx₂⟩ : ∃ m, x = passed.flatten ++ m ∧ t ++ rest.flatten = m ++ (y ++ z) := by
      refine exists_append_of_byteLen_le ?_ (by omega)
      rw [hsplit] at htext
      simpa using htext
    have hxlen := byteLen_append passed.flatten x₁
    obtain ⟨t₁, rfl, hyz⟩ : ∃ m, t = x₁ ++ m ∧ y ++ z = m ++ rest.flatten :=
      exists_append_of_byteLen_le hx₂.symm (by omega)
    have htlen := byteLen_append x₁ t₁
    by_cases hmore : c.chunks.stop < byteLen (passed.flatten ++ x₁ ++ y)
    · -- all the rest of the chunk, and more
      obtain ⟨y₁, rfl, hrest⟩ : ∃ m, y = t₁ ++ m ∧ rest.flatten = m ++ z :=
        exists_append_of_byteLen_le hyz.symm (by omega)
      have hylen := byteLen_append t₁ y₁
      refine .inr ⟨_, rest, t₁, y₁, rfl, rfl, by omega, ?_, .inl ⟨hmore, hrest, by omega⟩⟩
      rw [show c.offset - c.chunks.start = byteLen x₁ by omega,
        show min (byteLen (passed.flatten ++ x₁ ++ (t₁ ++ y₁))) c.chunks.stop - c.chunks.start =
          byteLen (x₁ ++ t₁) by omega]
      simpa using slice_chunkOf (a := x₁) (b := t₁) (c := []) (by simpa using hpiece)
    · obtain ⟨t₂, rfl, -⟩ : ∃ m, t₁ = y ++ m ∧ z = m ++ rest.flatten :=
        exists_append_of_byteLen_le hyz (by omega)
      refine .inr ⟨_, rest, y, [], rfl, (append_nil y).symm, by omega, ?_,
        .inr ⟨hmore, rfl, by omega⟩⟩
      have hxy₁ := byteLen_append x₁ y
      rw [show c.offset - c.chunks.start = byteLen x₁ by omega,
        show min (byteLen (passed.flatten ++ x₁ ++ y)) c.chunks.stop - c.chunks.start =
          byteLen (x₁ ++ y) by omega]
      simpa using slice_chunkOf (a := x₁) (b := y) (c := t₂) (by simpa using hpiece)

/-- **A slice of a cursor** is the text between its offset and the end it is given. -/
theorem Cursor.At.slice (hts : Shape ts)
    (h : c.At ts passed rest) {z : List Char} (htext : ts.flatten = x ++ y ++ z)
    (hx : byteLen x = c.offset) :
    ∃ us c' p r, c.slice (byteLen (x ++ y)) = some (ropeOf us, c') ∧ us.flatten = y ∧ Shape us ∧
      c'.At ts p r ∧ c'.offset = byteLen (x ++ y) := by
  have hlen : c.rope.len = byteLen (x ++ y) + byteLen z := by
    rw [h.rope, len_ropeOf, htext, byteLen_append]
  have hxy := byteLen_append x y
  rw [Cursor.slice, if_pos (by omega)]
  rcases h.range (fun t ht => (hts.pieces t ht).le) htext hx with
    ⟨rfl, rfl, hstop⟩ | ⟨t, rest, y₁, y₂, rfl, rfl, hy₁, hslice, hcase⟩
  · -- the cursor is at the end, and so is all it is asked for
    have hstart : c.sliceStart (byteLen (x ++ [])) = some Rope.new := by
      rw [Cursor.sliceStart, h.chunks]
      rfl
    rw [hstart, bind_some, if_neg hstop]
    have hle := h.le
    exact ⟨[], _, passed, [], rfl, rfl, trivial, h.moved (by omega) (by simpa [hx] using hle), rfl⟩
  · obtain ⟨us, hpush, huflat, hushape, -⟩ := pushChunk_spec shape_nil hy₁
    have hstart : c.sliceStart (byteLen (x ++ (y₁ ++ y₂))) = some (ropeOf us) := by
      rw [Cursor.sliceStart, show c.chunks.rest = chunkOf t :: rest.map chunkOf by rw [h.chunks]; rfl]
      simp only [if_neg h.not_lt_start, hslice]
      exact hpush
    rw [hstart, bind_some]
    rcases hcase with ⟨hmore, hrest, hend⟩ | ⟨hmore, rfl, hend⟩
    · obtain ⟨vs, p, r, hsrest, hvflat, hvshape, hpr, h₁, h₂⟩ :=
        sliceRest_spec (h.split ▸ hts) hushape hrest hend
      rw [if_pos hmore, h.chunks, hsrest]
      refine ⟨vs, _, p, r, rfl, ?_, hvshape, ⟨h.rope, h.split.trans hpr, rfl, h₁, h₂⟩, rfl⟩
      rw [hvflat, huflat, flatten_nil, nil_append]
    · rw [if_neg hmore]
      exact ⟨us, _, passed, _, rfl, by simpa using huflat, hushape, h.moved (by omega) hend, rfl⟩

/-! ## What is asked of a string -/

theorem strSlice_eq_some {text : List Char} (h : strSlice text start stop = some y) :
    ∃ x z, text = x ++ y ++ z ∧ byteLen x = start ∧ byteLen (x ++ y) = stop := by
  rw [strSlice] at h
  split at h
  · rename_i hb
    obtain ⟨hle, hstart, hstop⟩ := hb
    obtain ⟨x, rest, rfl, rfl⟩ := isCharBoundary_iff.mp hstart
    obtain ⟨b, z, hbz, rfl⟩ := isCharBoundary_iff.mp hstop
    obtain ⟨m, rfl, rfl⟩ := exists_append_of_byteLen_le hbz hle
    rw [splitFloor_byteLen, byteLen_append, Nat.add_sub_cancel_left, splitFloor_byteLen] at h
    cases h
    exact ⟨x, z, by simp, rfl, rfl⟩
  · cases h

theorem Boundary.le {text : List Char} {i : Nat} (h : Boundary text i) : i ≤ byteLen text := by
  obtain ⟨before, after, rfl, rfl⟩ := h
  rw [byteLen_append]
  omega

section

variable (hts : Shape ts)
include hts

theorem Cursor.At.slice_eq (h : c.At ts passed rest)
    (hy : strSlice ts.flatten c.offset stop = some y) :
    ∃ us c' p r, c.slice stop = some (ropeOf us, c') ∧ us.flatten = y ∧ Shape us ∧
      c'.At ts p r ∧ c'.offset = stop := by
  obtain ⟨x, z, htext, hx, rfl⟩ := strSlice_eq_some hy
  exact h.slice hts htext hx

theorem Cursor.At.suffix_eq (h : c.At ts passed rest)
    (hy : strSlice ts.flatten c.offset (byteLen ts.flatten) = some y) :
    ∃ us, c.suffix = some (ropeOf us) ∧ us.flatten = y ∧ Shape us := by
  obtain ⟨us, c', -, -, hslice, hflat, hshape, -, -⟩ := h.slice_eq hts hy
  refine ⟨us, ?_, hflat, hshape⟩
  rw [Cursor.suffix, h.rope, len_ropeOf, hslice]
  rfl

theorem Cursor.At.moves (moves : List CursorMove) (h : c.At ts passed rest)
    (hc : isCharBoundary ts.flatten c.offset)
    (hmoves : RopeExpr.textMoves ts.flatten c.offset moves = some offset) :
    ∃ c' p r, c.moves moves = some c' ∧ c'.At ts p r ∧ c'.offset = offset := by
  induction moves generalizing c passed rest with
  | nil => exact ⟨c, passed, rest, rfl, h, some.inj hmoves⟩
  | cons move moves ih =>
    cases move with
    | seekForward stop =>
      rw [RopeExpr.textMoves] at hmoves
      split at hmoves
      · rename_i hb
        obtain ⟨c₁, p, r, hseek, hat, rfl⟩ := h.seekForward hb.1 (isCharBoundary_iff.mp hb.2).le
        rw [Cursor.moves, hseek]
        exact ih hat hb.2 hmoves
      · cases hmoves
    | slice stop =>
      rw [RopeExpr.textMoves] at hmoves
      split at hmoves
      · rename_i hb
        obtain ⟨us, c₁, p, r, hslice, -, -, hat, rfl⟩ := h.slice_eq hts
          (show strSlice ts.flatten c.offset stop = some _ from if_pos ⟨hb.1, hc, hb.2⟩)
        rw [Cursor.moves, hslice]
        exact ih hat hb.2 hmoves
      · cases hmoves

theorem Cursor.new_moves (hstart : isCharBoundary ts.flatten start) {moves : List CursorMove}
    (hmoves : RopeExpr.textMoves ts.flatten start moves = some offset) :
    ∃ c p r, (Cursor.new (ropeOf ts) start).moves moves = some c ∧ c.At ts p r ∧ c.offset = offset := by
  obtain ⟨p, r, hat⟩ := Cursor.new_at ts (isCharBoundary_iff.mp hstart).le
  exact hat.moves hts moves hstart hmoves

theorem slice_spec (hy : strSlice ts.flatten start stop = some y) :
    ∃ us, (ropeOf ts).slice start stop = some (ropeOf us) ∧ us.flatten = y ∧ Shape us := by
  obtain ⟨x, z, htext, rfl, -⟩ := strSlice_eq_some hy
  have hx : byteLen x ≤ byteLen ts.flatten := Boundary.le ⟨x, y ++ z, by simp [htext], rfl⟩
  obtain ⟨p, r, hat⟩ := Cursor.new_at ts (Nat.zero_le _)
  obtain ⟨c, p', r', hseek, hat', hoff⟩ := hat.seekForward (Nat.zero_le _) hx
  obtain ⟨us, c', -, -, hslice, hflat, hshape, -, -⟩ := hat'.slice_eq hts (hoff ▸ hy)
  refine ⟨us, ?_, hflat, hshape⟩
  rw [Rope.slice, hseek, bind_some, hslice]
  rfl

theorem replace_spec {before between after : List Char} (hbefore : strSlice ts.flatten 0 start = some before)
    (hbetween : strSlice ts.flatten start stop = some between)
    (hafter : strSlice ts.flatten stop (byteLen ts.flatten) = some after) (text : List Char) :
    ∃ us, (ropeOf ts).replace start stop text = some (ropeOf us) ∧
      us.flatten = before ++ text ++ after ∧ Shape us := by
  obtain ⟨p, r, hat⟩ := Cursor.new_at ts (Nat.zero_le _)
  obtain ⟨us₁, c₁, p₁, r₁, hslice, hflat₁, hshape₁, hat₁, hoff₁⟩ := hat.slice_eq hts hbefore
  obtain ⟨us₂, happ, hflat₂, hshape₂⟩ := append_spec shape_nil hshape₁
  obtain ⟨x, z, htext, hx, hxy⟩ := strSlice_eq_some hbetween
  have hle : start ≤ stop := by
    rw [byteLen_append] at hxy
    omega
  obtain ⟨c₂, p₂, r₂, hseek, hat₂, hoff₂⟩ := hat₁.seekForward (hoff₁ ▸ hle)
    (Boundary.le ⟨x ++ between, z, htext, hxy⟩)
  obtain ⟨us₃, hpush, hflat₃, hshape₃⟩ := push_spec hshape₂ text
  obtain ⟨us₄, hsuffix, hflat₄, hshape₄⟩ := hat₂.suffix_eq hts (hoff₂ ▸ hafter)
  obtain ⟨us, happ', hflat, hshape⟩ := append_spec hshape₃ hshape₄
  refine ⟨us, ?_, ?_, hshape⟩
  · rw [Rope.replace, hslice, bind_some, show Rope.new = ropeOf [] from rfl, happ,
      bind_some, hseek, bind_some, hpush, bind_some, hsuffix, bind_some,
      happ']
  · rw [hflat, hflat₃, hflat₂, hflat₁, hflat₄]
    rfl

end

/-! ## Every sequence of operations -/

/-- The rope has the chunks of a text, cut as they may be. -/
def Rope.Holds (r : Rope) (text : List Char) : Prop :=
  ∃ ts, r = ropeOf ts ∧ ts.flatten = text ∧ Shape ts

theorem Rope.Holds.text {r : Rope} {text : List Char} (h : r.Holds text) : r.text = text := by
  obtain ⟨ts, rfl, rfl, -⟩ := h
  exact text_ropeOf ts

theorem Rope.Holds.chunks {r : Rope} {text : List Char} (h : r.Holds text) {c : Chunk}
    (hc : c ∈ r.chunks) : c.text ≠ [] ∧ c.len ≤ MAX_BASE ∧ Chunk.new c.text = some c := by
  obtain ⟨ts, rfl, -, hshape⟩ := h
  obtain ⟨t, ht, rfl⟩ := List.mem_map.mp hc
  have hpiece := hshape.pieces t ht
  exact ⟨hpiece.ne_nil, hpiece.le, new_eq hpiece.le⟩

theorem Rope.Holds.dropLast {r : Rope} {text : List Char} (h : r.Holds text) {c : Chunk}
    (hc : c ∈ r.chunks.dropLast) : MIN_BASE - 3 ≤ c.len := by
  obtain ⟨ts, rfl, -, hshape⟩ := h
  rcases eq_nil_or_concat' ts with rfl | ⟨init, last, rfl⟩
  · cases hc
  · rw [ropeOf, map_append, map_singleton, dropLast_concat] at hc
    obtain ⟨t, ht, rfl⟩ := List.mem_map.mp hc
    exact (((shape_append (by simp)).mp hshape).1 t ht).ge

theorem RopeExpr.rope_holds (e : RopeExpr) {text : List Char} (h : e.string = some text) :
    ∃ r, e.rope = some r ∧ r.Holds text := by
  induction e generalizing text with
  | new =>
    cases h
    exact ⟨_, rfl, [], rfl, rfl, trivial⟩
  | push r x ih =>
    obtain ⟨s, hs, rfl⟩ := Option.map_eq_some_iff.mp h
    obtain ⟨_, hr, ts, rfl, rfl, hshape⟩ := ih hs
    obtain ⟨us, hpush, hflat, hshape'⟩ := push_spec hshape x
    exact ⟨_, by rw [rope, hr, bind_some, hpush], us, rfl, hflat, hshape'⟩
  | pushFront r x ih =>
    obtain ⟨s, hs, rfl⟩ := Option.map_eq_some_iff.mp h
    obtain ⟨_, hr, ts, rfl, rfl, hshape⟩ := ih hs
    obtain ⟨us, hpush, hflat, hshape'⟩ := pushFront_spec hshape x
    exact ⟨_, by rw [rope, hr, bind_some, hpush], us, rfl, hflat, hshape'⟩
  | append r other ih ih' =>
    obtain ⟨s, hs, h⟩ := Option.bind_eq_some_iff.mp h
    obtain ⟨s', hs', rfl⟩ := Option.map_eq_some_iff.mp h
    obtain ⟨_, hr, ts, rfl, rfl, hshape⟩ := ih hs
    obtain ⟨_, hr', ts', rfl, rfl, hshape'⟩ := ih' hs'
    obtain ⟨us, happ, hflat, hshape''⟩ := append_spec hshape hshape'
    exact ⟨_, by rw [rope, hr, bind_some, hr', bind_some, happ], us, rfl, hflat, hshape''⟩
  | replace r start stop x ih =>
    obtain ⟨s, hs, h⟩ := Option.bind_eq_some_iff.mp h
    obtain ⟨before, hbefore, h⟩ := Option.bind_eq_some_iff.mp h
    obtain ⟨between, hbetween, h⟩ := Option.bind_eq_some_iff.mp h
    obtain ⟨after, hafter, rfl⟩ := Option.map_eq_some_iff.mp h
    obtain ⟨_, hr, ts, rfl, rfl, hshape⟩ := ih hs
    obtain ⟨us, hreplace, hflat, hshape'⟩ := replace_spec hshape hbefore hbetween hafter x
    exact ⟨_, by rw [rope, hr, bind_some, hreplace], us, rfl, hflat, hshape'⟩
  | slice r start stop ih =>
    obtain ⟨s, hs, h⟩ := Option.bind_eq_some_iff.mp h
    obtain ⟨_, hr, ts, rfl, rfl, hshape⟩ := ih hs
    obtain ⟨us, hslice, hflat, hshape'⟩ := slice_spec hshape h
    exact ⟨_, by rw [rope, hr, bind_some, hslice], us, rfl, hflat, hshape'⟩
  | cursorSlice r start moves stop ih =>
    obtain ⟨s, hs, h⟩ := Option.bind_eq_some_iff.mp h
    obtain ⟨_, hr, ts, rfl, rfl, hshape⟩ := ih hs
    split at h
    · rename_i hstart
      obtain ⟨offset, hmoves, h⟩ := Option.bind_eq_some_iff.mp h
      obtain ⟨c, p, q, hc, hat, rfl⟩ := Cursor.new_moves hshape hstart hmoves
      obtain ⟨us, c', -, -, hslice, hflat, hshape', -, -⟩ := hat.slice_eq hshape h
      refine ⟨_, ?_, us, rfl, hflat, hshape'⟩
      rw [rope, hr, bind_some, hc, bind_some, hslice]
      rfl
    · cases h
  | cursorSuffix r start moves ih =>
    obtain ⟨s, hs, h⟩ := Option.bind_eq_some_iff.mp h
    obtain ⟨_, hr, ts, rfl, rfl, hshape⟩ := ih hs
    split at h
    · rename_i hstart
      obtain ⟨offset, hmoves, h⟩ := Option.bind_eq_some_iff.mp h
      obtain ⟨c, p, q, hc, hat, rfl⟩ := Cursor.new_moves hshape hstart hmoves
      obtain ⟨us, hsuffix, hflat, hshape'⟩ := hat.suffix_eq hshape h
      exact ⟨_, by rw [rope, hr, bind_some, hc, bind_some, hsuffix], us, rfl, hflat, hshape'⟩
    · cases h

end SpkEditor.Chunked
