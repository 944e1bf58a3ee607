import SpkEditor.Display.InlaySync

/-!
# Synchronizing an inlay map

The whole loop of `sync`: the inlays of the old and of the new buffer agree wherever no edit touches the
text (`Agrees`), and so the loop ends with the tokens of the new buffer.
-/

namespace SpkEditor.Inlays

open Patch (Describes describes_copy imageFrom)

variable {Anchor : Type}

variable {ats : Nat → List (Inlay Anchor)}

/-- The inlays are the same between the edits. -/
def Agrees (old new : Nat → List (Inlay Anchor)) : Nat → Nat → List Edit → Prop
  | o, n, [] => ∀ k, 0 < k → old (o + k) = new (n + k)
  | o, n, e :: edits => (∀ k, 0 < k → o + k < e.old.start → old (o + k) = new (n + k)) ∧
      Agrees old new e.old.stop e.new.stop edits

section

variable (o : Nat) (text : List Char)

theorem head?_after (i : Inlay Anchor) :
    (after ats o text).head? ≠ some (.inr i) := by
  cases text with
  | nil => simp
  | cons c text => simp [after, inner]

theorem endsInChar_woven : EndsInChar (woven ats o text) := by
  rcases List.eq_nil_or_concat text with rfl | ⟨text, c, rfl⟩
  · exact .inl rfl
  · refine .inr ⟨woven ats o text ++ before ats (o + byteLen text), c, ?_⟩
    rw [List.concat_eq_append, woven_append, woven, woven, List.append_assoc]

theorem endsInChar_inner : EndsInChar (inner ats o text) := by
  by_cases h : text = []
  · rw [h]
    exact .inl rfl
  · have hwoven := @endsInChar_woven _ ats o text
    rw [woven_eq h] at hwoven
    exact hwoven.suffix

end

/-- The tokens of the new buffer, and the edits that lead to them. -/
structure Synced (bold : List (Block Anchor)) (d : List (Token Anchor)) (st : SyncState Anchor) : Prop where
  exists_blocks : ∃ bs r, st.newTransforms = transforms bs ∧ st.cursor.rest = transforms r ∧
    Neat (bs ++ r) ∧ tokensOf (bs ++ r) = d
  describes : Describes st.inlayEdits (utf8 (outOf (tokensOf bold))) (utf8 (outOf d))

theorem Stands.synced {bold : List (Block Anchor)} (hbold : Whole bold) {p x n : List (Token Anchor)}
    {st : SyncState Anchor} (h : Stands False bold p x [] n st) : Synced bold (n ++ x) st := by
  have htokens := h.tokens
  rw [List.append_nil] at htokens
  have hdescribes := describes_copy h.describes (utf8 (outOf x))
  rw [← utf8_append, ← utf8_append, ← outOf_append, ← outOf_append, ← htokens] at hdescribes
  cases h with
  | inside _ hw' _ _ ht _ _ _ =>
    exact absurd (ofChars_eq_nil.mp (List.append_eq_nil_iff.mp ht.symm).1) hw'
  | @ahead s r v x' new edits hb hp hx hr hn hneat hhead hd =>
    have hhead := hhead.resolve_right fun h => h.1
    refine ⟨⟨new, r, rfl, rfl, hneat.append ?_ (.inl hhead), ?_⟩, hdescribes⟩
    · rcases hbold with hbold | hempty
      · exact (hb ▸ hbold).of_append.2
      · rcases List.append_eq_singleton_iff.mp (hb.symm.trans hempty) with ⟨-, rfl⟩ | ⟨-, rfl⟩
        · exact absurd rfl (hhead [])
        · exact neat_nil
    · rw [tokensOf_append, hn, hr, hx]
      simp

section

variable {bold : List (Block Anchor)} {inlays : List (Inlay Anchor)} {buffer : Buffer Anchor}
  {old : Nat → List (Inlay Anchor)}

theorem syncEdits_spec (hbold : Whole bold)
    (hsorted : inlays.Pairwise fun i j => buffer.offsetOf i ≤ buffer.offsetOf j)
    (hin : InText buffer.offsetOf (buffer.visible inlays) 0 buffer.text) :
    ∀ (edits : List Edit) {first : Prop} {p x n : List (Token Anchor)} {deleted inserted told tnew : List Char}
      {st : SyncState Anchor} {os ns : Nat},
    os = byteLen (charsOf (p ++ x)) → ns = byteLen (charsOf (n ++ x)) →
    Stands first bold p x (full old os (deleted ++ told)) n st → EndsInChar x →
    buffer.text = charsOf (n ++ x) ++ (inserted ++ tnew) →
    Changes (os + byteLen deleted) (ns + byteLen inserted) edits told tnew →
    (∀ e ∈ edits.head?, os + byteLen deleted < e.old.start) → Patch.Separated edits →
    Agrees old (atOf buffer.offsetOf (buffer.visible inlays)) (os + byteLen deleted)
      (ns + byteLen inserted) edits →
    ∃ st', syncEdits inlays buffer st
        (⟨⟨os, os + byteLen deleted⟩, ⟨ns, ns + byteLen inserted⟩⟩ :: edits) = some st' ∧
      Synced bold (n ++ x ++
        full (atOf buffer.offsetOf (buffer.visible inlays)) ns (inserted ++ tnew)) st' := by
  intro edits
  induction edits with
  | nil =>
    intro first p x n deleted inserted told tnew st os ns hos hns hst hx hbuffer hchanges _ _ hagrees
    cases hchanges
    rw [full_append] at hst
    have hafter : after old (os + byteLen deleted) told =
        after (atOf buffer.offsetOf (buffer.visible inlays)) (ns + byteLen inserted) told :=
      after_congr fun k hk _ => hagrees k hk
    obtain ⟨st', hsync, hst'⟩ := @syncEdit_spec _ n p x bold st buffer first hbold inlays hsorted hin _ _
      (after old (os + byteLen deleted) told) [] hst hx (head?_after _ _) (List.append_nil _).symm
      inserted [] (by rw [hbuffer]; simp) ⟨⟨os, os + byteLen deleted⟩, ⟨ns, ns + byteLen inserted⟩⟩ hos
      (by rw [charsOf_append, charsOf_full, byteLen_append, hos]) hns (by rw [← hns]) none (by simp)
      (fun _ => rfl)
    refine ⟨st', ?_, ?_⟩
    · rw [syncEdits, List.head?_nil, hsync]
      rfl
    · have hsynced := hst'.synced hbold
      rw [hafter] at hsynced
      rw [full_append, ← List.append_assoc]
      exact hsynced
  | cons e edits ih =>
    intro first p x n deleted inserted told tnew st os ns hos hns hst hx hbuffer hchanges hhead hsep hagrees
    cases hchanges with
    | @edit _ _ _ told tnew kept deleted' inserted' hrest =>
      have hkept : kept ≠ [] := by
        rintro rfl
        have := hhead _ rfl
        simp at this
      have hinner : inner old (os + byteLen deleted) kept =
          inner (atOf buffer.offsetOf (buffer.visible inlays)) (ns + byteLen inserted) kept :=
        inner_congr fun k hk hlt => hagrees.1 k hk (by simp only; omega)
      rw [full_append, after_append hkept] at hst
      obtain ⟨st', hsync, hst'⟩ := @syncEdit_spec _ n p x bold st buffer first hbold inlays hsorted hin _ _
        (inner old (os + byteLen deleted) kept)
        (full old (os + byteLen deleted + byteLen kept) (deleted' ++ told)) hst hx
        (by rw [← after_append hkept]; exact head?_after _ _) rfl inserted (inserted' ++ tnew)
        (by rw [hbuffer]; simp) ⟨⟨os, os + byteLen deleted⟩, ⟨ns, ns + byteLen inserted⟩⟩ hos
        (by rw [charsOf_append, charsOf_full, byteLen_append, hos]) hns (by rw [← hns])
        (some ⟨⟨os + byteLen deleted + byteLen kept, os + byteLen deleted + byteLen kept + byteLen deleted'⟩,
          ⟨ns + byteLen inserted + byteLen kept, ns + byteLen inserted + byteLen kept + byteLen inserted'⟩⟩)
        (by simp) (by simp)
      obtain ⟨st'', hsyncs, hsynced⟩ := @ih False (p ++ x ++ full old os deleted)
        (inner old (os + byteLen deleted) kept)
        (n ++ x ++ full (atOf buffer.offsetOf (buffer.visible inlays)) ns inserted) deleted' inserted'
        told tnew st' (os + byteLen deleted + byteLen kept) (ns + byteLen inserted + byteLen kept)
        (by rw [hos]; simp [byteLen_append, Nat.add_assoc])
        (by rw [hns]; simp [byteLen_append, Nat.add_assoc]) hst' (endsInChar_inner _ _)
        (by rw [hbuffer]; simp) hrest
        (fun e he => by
          obtain ⟨edits, rfl⟩ := List.head?_eq_some_iff.mp he
          exact (List.isChain_cons_cons.mp hsep).1.1)
        (Patch.Separated.tail hsep) hagrees.2
      refine ⟨st'', ?_, ?_⟩
      · rw [syncEdits, List.head?_cons, hsync]
        exact hsyncs
      · rw [hinner] at hsynced
        rw [full_append, after_append hkept]
        simpa using hsynced

theorem stands_start {x t : List (Token Anchor)} (hd : tokensOf bold = x ++ t) :
    Stands True bold [] x t [] ⟨[], ⟨[], transforms bold⟩, []⟩ :=
  .ahead (s := []) (v := []) rfl rfl rfl hd rfl neat_nil (.inr ⟨trivial, rfl⟩) (Patch.describes_nil [])

/-- **The whole loop**: it ends with the tokens of the new buffer. -/
theorem syncEdits_whole (hbold : Whole bold) {text : List Char} (htokens : tokensOf bold = full old 0 text)
    (hsorted : inlays.Pairwise fun i j => buffer.offsetOf i ≤ buffer.offsetOf j)
    (hin : InText buffer.offsetOf (buffer.visible inlays) 0 buffer.text)
    {e : Edit} {edits : List Edit} (hexact : ExactEdits (e :: edits) text buffer.text)
    (hagrees : Agrees old (atOf buffer.offsetOf (buffer.visible inlays)) 0 0 (e :: edits))
    (hzero : 0 < e.old.start → old 0 = atOf buffer.offsetOf (buffer.visible inlays) 0) :
    ∃ st, syncEdits inlays buffer ⟨[], ⟨[], transforms bold⟩, []⟩ (e :: edits) = some st ∧
      Synced bold (buffer.woven inlays) st := by
  obtain ⟨hchanges, hsep⟩ := hexact
  generalize hnew : buffer.text = new at hchanges
  cases hchanges with
  | @edit _ _ _ told tnew kept deleted inserted hrest =>
    -- the text before the first edit, with the inlays at its start
    have hwoven : woven old 0 kept =
        woven (atOf buffer.offsetOf (buffer.visible inlays)) 0 kept := by
      refine woven_congr fun k hk => ?_
      rcases Nat.eq_zero_or_pos k with rfl | hpos
      · exact hzero (by simp only; omega)
      · exact hagrees.1 k hpos (by simp only; omega)
    rw [full_eq_woven] at htokens
    have hlen : 0 + byteLen kept = byteLen (charsOf ([] ++ woven old 0 kept)) := by
      rw [List.nil_append, charsOf_woven, Nat.zero_add]
    obtain ⟨st, hsync, hsynced⟩ := syncEdits_spec hbold hsorted hin edits hlen hlen
      (stands_start htokens) (endsInChar_woven 0 kept)
      (by rw [hnew, List.nil_append, charsOf_woven]) hrest
      (fun e he => by
        obtain ⟨edits, rfl⟩ := List.head?_eq_some_iff.mp he
        exact (List.isChain_cons_cons.mp hsep).1.1)
      (Patch.Separated.tail hsep) hagrees.2
    refine ⟨st, hsync, ?_⟩
    rw [Buffer.woven, hnew, full_eq_woven, ← hwoven]
    exact hsynced

end

end SpkEditor.Inlays
