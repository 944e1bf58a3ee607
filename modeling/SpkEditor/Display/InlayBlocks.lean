import SpkEditor.Display.InlayTokens

/-!
# Blocks of transforms

The functions of `sync` on lists of blocks: pushing text, pushing the inlays of an edit, and moving the
cursor to an offset. A cursor that stops at an offset is between two blocks or inside a run, and
the tokens decide which (`split_cases`).
-/

namespace SpkEditor.Inlays

open Chunked (strSlice strSlice_append)

variable {Anchor : Type}

variable {bs : List (Block Anchor)}

/-- No run is empty, and there are no two runs next to each other. -/
structure Neat (bs : List (Block Anchor)) : Prop where
  nonempty : ∀ text, .run text ∈ bs → text ≠ []
  chain : bs.IsChain fun a b => ¬ (a.isRun = true ∧ b.isRun = true)

theorem neat_nil : Neat ([] : List (Block Anchor)) := ⟨by simp, List.isChain_nil⟩

theorem Neat.of_append {a b : List (Block Anchor)} (h : Neat (a ++ b)) : Neat a ∧ Neat b :=
  ⟨⟨fun text hmem => h.nonempty text (List.mem_append_left b hmem), h.chain.left_of_append⟩,
    ⟨fun text hmem => h.nonempty text (List.mem_append_right a hmem), h.chain.right_of_append⟩⟩

theorem Neat.append {a b : List (Block Anchor)} (ha : Neat a) (hb : Neat b)
    (h : (∀ text, b.head? ≠ some (.run text)) ∨ a = []) : Neat (a ++ b) := by
  refine ⟨?_, ?_⟩
  · intro text hmem
    rcases List.mem_append.mp hmem with hmem | hmem
    · exact ha.nonempty text hmem
    · exact hb.nonempty text hmem
  · rcases h with h | rfl
    · refine List.isChain_append.mpr ⟨ha.chain, hb.chain, ?_⟩
      rintro x _ y hy ⟨-, hrun⟩
      cases y with
      | run text => exact h text hy
      | inlay i => cases hrun
    · exact hb.chain

theorem Neat.push (h : Neat bs) (i : Inlay Anchor) : Neat (bs ++ [.inlay i]) :=
  h.append ⟨by simp, List.isChain_singleton _⟩ (.inl (by simp))

def pushRun (bs : List (Block Anchor)) (text : List Char) : List (Block Anchor) :=
  if text = [] then bs
  else
    match bs.getLast? with
    | some (.run last) => bs.dropLast ++ [.run (last ++ text)]
    | _ => bs ++ [.run text]

section

variable (bs : List (Block Anchor)) (text : List Char)

theorem transforms_pushRun :
    transforms (pushRun bs text) = pushIsomorphic (transforms bs) (.ofText text) := by
  rw [pushRun, pushIsomorphic, TextSummary.len_ofText]
  by_cases htext : text = []
  · rw [if_pos htext, if_pos (byteLen_eq_zero.mpr htext)]
  · rw [if_neg htext, if_neg (fun h => htext (byteLen_eq_zero.mp h)), transforms, transforms,
      List.getLast?_map]
    cases hlast : bs.getLast? with
    | none => simp [Block.transform]
    | some b =>
      cases b with
      | run last =>
        simp only [Option.map_some, Block.transform, List.map_append, List.map_dropLast, List.map_cons,
          List.map_nil, TextSummary.ofText_append]
      | inlay i => simp [Block.transform]

@[simp] theorem tokensOf_pushRun :
    tokensOf (pushRun bs text) = tokensOf bs ++ ofChars text := by
  rw [pushRun]
  split
  · next h => rw [h, ofChars_nil, List.append_nil]
  · split
    · next last hlast =>
      have hbs : bs.dropLast ++ [.run last] = bs := List.dropLast_append_getLast? _ hlast
      conv_rhs => rw [← hbs]
      simp [Block.tokens]
    · simp [Block.tokens]

end

theorem Neat.pushRun (h : Neat bs) (text : List Char) : Neat (Inlays.pushRun bs text) := by
  rw [Inlays.pushRun]
  split
  · exact h
  · next hne =>
    split
    · next last hlast =>
      have hbs : bs.dropLast ++ [.run last] = bs := List.dropLast_append_getLast? _ hlast
      rw [← hbs] at h
      refine ⟨?_, ?_⟩
      · intro t hmem
        rcases List.mem_append.mp hmem with hmem | hmem
        · exact h.nonempty t (List.mem_append_left _ hmem)
        · obtain rfl : t = last ++ text := by simpa using hmem
          exact fun heq => hne (List.append_eq_nil_iff.mp heq).2
      · have hchain := List.isChain_append.mp h.chain
        refine List.isChain_append.mpr ⟨hchain.1, List.isChain_singleton _, ?_⟩
        rintro x hx y hy ⟨hrun, -⟩
        exact hchain.2.2 x hx (.run last) rfl ⟨hrun, rfl⟩
    · next hlast =>
      refine ⟨?_, ?_⟩
      · intro t hmem
        rcases List.mem_append.mp hmem with hmem | hmem
        · exact h.nonempty t hmem
        · obtain rfl : t = text := by simpa using hmem
          exact hne
      · refine List.isChain_append.mpr ⟨h.chain, List.isChain_singleton _, ?_⟩
        rintro x hx y - ⟨hrun, -⟩
        cases x with
        | run last => exact hlast last hx
        | inlay i => cases hrun

theorem pushUntil_transforms {buffer : Buffer Anchor} {text rest : List Char}
    (hbuffer : buffer.text = charsOf (tokensOf bs) ++ text ++ rest) {stop : Nat}
    (hstop : stop = byteLen (charsOf (tokensOf bs)) + byteLen text) :
    pushUntil buffer (transforms bs) stop = some (transforms (pushRun bs text)) := by
  have hslice := strSlice_append (charsOf (tokensOf bs)) text rest
  rw [pushUntil, Buffer.textSummaryForRange, inputLen_transforms, hbuffer, hstop, ← byteLen_append,
    hslice, transforms_pushRun]
  rfl

theorem pushInlays_transforms {buffer : Buffer Anchor} {rest : List Char} {stop : Nat} :
    ∀ (inlays : List (Inlay Anchor)) {bs : List (Block Anchor)} {o : Nat} {text : List Char},
    buffer.text = charsOf (tokensOf bs) ++ text ++ rest → o = byteLen (charsOf (tokensOf bs)) →
    stop = o + byteLen text → Neat bs →
    (buffer.visible inlays).Pairwise (fun i j => buffer.offsetOf i ≤ buffer.offsetOf j) →
    (∀ i ∈ inlays, buffer.isValid i.position = true → o ≤ buffer.offsetOf i) →
    InText buffer.offsetOf (buffer.visible inlays) 0 buffer.text →
    ∃ bs' s t, pushInlays buffer stop (transforms bs) inlays = some (transforms bs') ∧ Neat bs' ∧
      text = s ++ t ∧ charsOf (tokensOf bs') = charsOf (tokensOf bs) ++ s ∧
      tokensOf bs' ++ ofChars t = tokensOf bs ++
        full (atOf buffer.offsetOf (buffer.visible inlays)) o text
  | [], bs, o, text, _, _, _, hneat, _, _, _ =>
    ⟨bs, [], text, rfl, hneat, rfl, by simp, by rw [Buffer.visible, List.filter_nil, full_nil]⟩
  | i :: inlays, bs, o, text, hbuffer, ho, hstop, hneat, hsorted, hge, hin => by
      rw [pushInlays]
      by_cases hvalid : buffer.isValid i.position = false
      · rw [if_pos hvalid]
        have hvisible : buffer.visible (i :: inlays) = buffer.visible inlays :=
          List.filter_cons_of_neg (by simp [hvalid])
        rw [hvisible] at hsorted hin ⊢
        exact pushInlays_transforms inlays hbuffer ho hstop hneat hsorted
          (fun j hj => hge j (List.mem_cons_of_mem i hj)) hin
      · rw [if_neg hvalid]
        rw [Bool.not_eq_false] at hvalid
        have hvisible : buffer.visible (i :: inlays) = i :: buffer.visible inlays :=
          List.filter_cons_of_pos (by simpa using hvalid)
        rw [hvisible] at hsorted hin ⊢
        obtain ⟨hi, hsorted⟩ := List.pairwise_cons.mp hsorted
        split
        · -- this inlay is behind the edit, and so are the others
          next hbehind =>
          refine ⟨bs, [], text, rfl, hneat, rfl, by simp, ?_⟩
          rw [← full_nil buffer.offsetOf o text]
          refine congrArg _ (full_congr fun k hk => ?_)
          rw [atOf_eq_nil fun j hj => ?_, atOf_eq_nil fun j hj => ?_]
          · have hle : buffer.offsetOf i ≤ buffer.offsetOf j := by
              rcases List.mem_cons.mp hj with rfl | hj
              · exact Nat.le_refl _
              · exact hi j hj
            rw [Buffer.offsetOf] at hle
            omega
          · cases hj
        · next hinside =>
          obtain ⟨s₀, t₀, heq, hoff⟩ := hin i (by simp)
          rw [Nat.zero_add] at hoff
          have hoi := hge i (by simp) hvalid
          rw [Buffer.offsetOf] at hoi hoff
          -- the text before the inlay
          have hcut : charsOf (tokensOf bs) ++ (text ++ rest) = s₀ ++ t₀ := by
            rw [← List.append_assoc, ← hbuffer, heq]
          obtain ⟨s, rfl, hst⟩ := exists_append_of_byteLen_le hcut (by omega)
          rw [byteLen_append] at hoff
          obtain ⟨t, rfl, -⟩ := exists_append_of_byteLen_le hst.symm (by omega)
          have hbuffer' : buffer.text = charsOf (tokensOf bs) ++ s ++ (t ++ rest) := by
            rw [hbuffer]
            simp
          have hchars : charsOf (tokensOf (pushRun bs s ++ [.inlay i])) =
              charsOf (tokensOf bs) ++ s := by simp [Block.tokens]
          rw [byteLen_append] at hstop
          obtain ⟨bs', s', t', hpush, hneat', rfl, hchars', htokens⟩ :=
            @pushInlays_transforms buffer rest stop inlays (pushRun bs s ++ [.inlay i])
              (buffer.offsetOf i) t (by rw [hchars, hbuffer']; simp) (by rw [hchars, byteLen_append, Buffer.offsetOf, hoff])
              (by rw [Buffer.offsetOf]; omega)
              ((hneat.pushRun s).push i) hsorted
              (fun j hj hv => hi j (List.mem_filter.mpr ⟨hj, hv⟩))
              (fun j hj => hin j (List.mem_cons_of_mem i hj))
          refine ⟨bs', s ++ s', t', ?_, hneat', by simp, by rw [hchars', hchars]; simp, ?_⟩
          · rw [pushUntil_transforms hbuffer' (by omega)]
            rw [transforms_append] at hpush
            exact hpush
          · rw [htokens, full_cons hi (by rw [Buffer.offsetOf, hoff, ho])]
            simp [Block.tokens]

/-- Where a list of tokens is cut, the blocks are cut too, or a run is. -/
theorem split_cases (hne : ∀ text, .run text ∈ bs → text ≠ [])
    {s t : List (Token Anchor)} (h : tokensOf bs = s ++ t) :
    (∃ a b, bs = a ++ b ∧ tokensOf a = s ∧ tokensOf b = t) ∨
      ∃ a x y b, bs = a ++ .run (x ++ y) :: b ∧ x ≠ [] ∧ y ≠ [] ∧ tokensOf a ++ ofChars x = s ∧
        t = ofChars y ++ tokensOf b := by
  induction bs generalizing s with
  | nil =>
    obtain ⟨rfl, rfl⟩ := List.append_eq_nil_iff.mp h.symm
    exact .inl ⟨[], [], rfl, rfl, rfl⟩
  | cons b bs ih =>
    rw [tokensOf_cons] at h
    rcases List.append_eq_append_iff.mp h with ⟨r, rfl, hr⟩ | ⟨r, hs, rfl⟩
    · -- the cut is behind the first block
      rcases ih (fun text hmem => hne text (List.mem_cons_of_mem b hmem)) hr with
        ⟨a, c, rfl, rfl, rfl⟩ | ⟨a, x, y, c, rfl, hx, hy, rfl, rfl⟩
      · exact .inl ⟨b :: a, c, rfl, by simp, rfl⟩
      · exact .inr ⟨b :: a, x, y, c, rfl, hx, hy, by simp, rfl⟩
    · by_cases hr : r = []
      · subst hr
        exact .inl ⟨[b], bs, rfl, by simpa using hs, rfl⟩
      · by_cases hs' : s = []
        · subst hs'
          exact .inl ⟨[], b :: bs, rfl, rfl, by simp [hs]⟩
        · -- only a run has more than one token
          cases b with
          | inlay i =>
            have hlen := congrArg List.length hs
            have h1 := List.length_pos_iff.mpr hr
            have h2 := List.length_pos_iff.mpr hs'
            simp only [Block.tokens, List.length_singleton, List.length_append] at hlen
            omega
          | run text =>
            obtain ⟨x, y, rfl, rfl, rfl⟩ := List.map_eq_append_iff.mp hs
            refine .inr ⟨[], x, y, bs, rfl, ?_, ?_, rfl, rfl⟩
            · rintro rfl
              exact hs' rfl
            · rintro rfl
              exact hr rfl

/-- The blocks of a snapshot: neat, or a single empty run. -/
def Whole (bs : List (Block Anchor)) : Prop := Neat bs ∨ bs = [.run []]

theorem sum_input (bs : List (Block Anchor)) :
    ((transforms bs).map fun t => t.input.len).sum = byteLen (charsOf (tokensOf bs)) :=
  inputLen_transforms bs

/-- The cursor moves to where the tokens are cut, if the second part does not start with an inlay. -/
theorem seek_transforms {s r : List (Block Anchor)} (hbs : Whole bs) (heq : bs = s ++ r)
    {p q : List (Token Anchor)} (h : tokensOf bs = p ++ q) (hq : ∀ i, q.head? ≠ some (.inr i)) :
    ∃ s' r', Cursor.seek ⟨transforms s, transforms r⟩ (byteLen (charsOf p)) =
        ⟨transforms s', transforms r'⟩ ∧ bs = s' ++ r' ∧
      ((r' = [] ∧ tokensOf s' = p ∧ q = []) ∨
        ∃ x y b, r' = .run (x ++ y) :: b ∧ y ≠ [] ∧ tokensOf s' ++ ofChars x = p ∧
          q = ofChars y ++ tokensOf b) := by
  have hseek : ∀ {a b : List (Block Anchor)}, bs = a ++ b →
      (a = [] ∨ byteLen (charsOf (tokensOf a)) ≤ byteLen (charsOf p)) →
      (∀ c ∈ b.head?, byteLen (charsOf p) < byteLen (charsOf (tokensOf a)) + byteLen (charsOf c.tokens)) →
      Cursor.seek ⟨transforms s, transforms r⟩ (byteLen (charsOf p)) = ⟨transforms a, transforms b⟩ := by
    intro a b hab ha hb
    have hadv := @advance_eq _ (fun t : Transform Anchor => t.input.len)
      (fun stop => stop ≤ byteLen (charsOf p))
      (fun i j hij hj => by simp only [decide_eq_true_eq] at hj ⊢; omega)
      (transforms a) (transforms b) 0
      (by
        rw [sum_input]
        rcases ha with rfl | ha
        · exact .inl rfl
        · exact .inr (by simpa using ha))
      (by
        intro t ht
        rw [transforms, List.head?_map] at ht
        obtain ⟨c, hc, rfl⟩ := Option.map_eq_some_iff.mp ht
        have := hb c hc
        rw [sum_input, len_input]
        simp only [decide_eq_false_iff_not]
        omega)
    rw [Cursor.seek, ← transforms_append, ← heq, hab, transforms_append, hadv]
  rcases hbs with hneat | rfl
  · rcases split_cases hneat.nonempty h with ⟨a, b, hab, rfl, rfl⟩ | ⟨a, x, y, b, hab, -, hy, rfl, rfl⟩
    · refine ⟨a, b, hseek hab (.inr (Nat.le_refl _)) ?_, hab, ?_⟩
      · intro c hc
        cases b with
        | nil => cases hc
        | cons d b =>
          cases hc
          cases c with
          | run text =>
            have hne := hneat.nonempty text (by rw [hab]; simp)
            have := byteLen_pos hne
            simp only [Block.tokens, charsOf_ofChars]
            omega
          | inlay i => exact absurd rfl (hq i)
      · cases b with
        | nil => exact .inl ⟨rfl, rfl, rfl⟩
        | cons d b =>
          cases d with
          | run text =>
            exact .inr ⟨[], text, b, rfl, hneat.nonempty text (by rw [hab]; simp), by simp, by
              simp [Block.tokens]⟩
          | inlay i => exact absurd rfl (hq i)
    · refine ⟨a, .run (x ++ y) :: b, hseek hab (.inr ?_) ?_, hab, .inr ⟨x, y, b, rfl, hy, rfl, rfl⟩⟩
      · simp [byteLen_append]
      · intro c hc
        cases hc
        have := byteLen_pos hy
        simp only [Block.tokens, charsOf_append, charsOf_ofChars, byteLen_append]
        omega
  · obtain ⟨rfl, rfl⟩ := List.append_eq_nil_iff.mp h.symm
    exact ⟨[.run []], [], hseek (List.append_nil _).symm (.inr (Nat.le_refl _)) (by simp), by simp,
      .inl ⟨rfl, rfl, rfl⟩⟩

end SpkEditor.Inlays
