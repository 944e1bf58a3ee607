import SpkEditor.Display.InlayBlocks

/-!
# The loop of `sync`

Old and new tokens are the same up to the next edit; what the edit replaces is followed by tokens that
are the same again. `Stands` says where the loop is between two edits: the cursor is still inside the
run in which the last edit ended, or the loop is ahead and has pushed the rest of that run.
-/

namespace SpkEditor.Inlays

open Patch (Describes describes_copy describes_push checkedSub_add_left)

variable {Anchor : Type}

variable {n p t x : List (Token Anchor)} {bold : List (Block Anchor)} {st : SyncState Anchor}
  {buffer : Buffer Anchor} {first : Prop}

/-- The loop has replaced the tokens `p` by `n`. The tokens `x` follow, which are kept up to the next edit,
and then the tokens `t`. Before the first edit nothing has been pushed. -/
inductive Stands (first : Prop) (bold : List (Block Anchor)) (p x t n : List (Token Anchor)) :
    SyncState Anchor → Prop
  | inside {s : List (Block Anchor)} {v w w' : List Char} {r new : List (Block Anchor)} {edits : Patch} :
      bold = s ++ .run (v ++ (w ++ w')) :: r → w' ≠ [] → tokensOf s ++ ofChars v = p → x = ofChars w →
      t = ofChars w' ++ tokensOf r → tokensOf new = n → Neat new →
      Describes edits (utf8 (outOf p)) (utf8 (outOf n)) →
      Stands first bold p x t n
        ⟨transforms new, ⟨transforms s, transforms (.run (v ++ (w ++ w')) :: r)⟩, edits⟩
  | ahead {s r : List (Block Anchor)} {v : List Char} {x' : List (Token Anchor)}
      {new : List (Block Anchor)} {edits : Patch} :
      bold = s ++ r → tokensOf s = p ++ ofChars v → x = ofChars v ++ x' → tokensOf r = x' ++ t →
      tokensOf new = n ++ ofChars v → Neat new →
      ((∀ text, r.head? ≠ some (.run text)) ∨ (first ∧ new = [])) →
      Describes edits (utf8 (outOf p)) (utf8 (outOf n)) →
      Stands first bold p x t n ⟨transforms new, ⟨transforms s, transforms r⟩, edits⟩

theorem Stands.tokens (h : Stands first bold p x t n st) : tokensOf bold = p ++ (x ++ t) := by
  cases h with
  | inside hbold _ hp hx ht _ _ _ =>
    rw [hbold, hx, ht, ← hp]
    simp [Block.tokens]
  | ahead hbold hp hx hr _ _ _ _ =>
    rw [hbold, tokensOf_append, hp, hr, hx]
    simp

theorem Stands.describes (h : Stands first bold p x t n st) :
    Describes st.inlayEdits (utf8 (outOf p)) (utf8 (outOf n)) := by
  cases h with
  | inside _ _ _ _ _ _ _ hd => exact hd
  | ahead _ _ _ _ _ _ _ hd => exact hd

/-- The last token is a character. -/
def EndsInChar (x : List (Token Anchor)) : Prop := x = [] ∨ ∃ y c, x = y ++ [.inl c]

theorem EndsInChar.suffix {y : List (Token Anchor)} (h : EndsInChar (x ++ y)) : EndsInChar y := by
  by_cases hy : y = []
  · exact .inl hy
  · rcases h with h | ⟨z, c, h⟩
    · exact .inl (List.append_eq_nil_iff.mp h).2
    · refine .inr ⟨y.dropLast, c, ?_⟩
      have hlast : (x ++ y).getLast? = some (.inl c) := by rw [h]; simp
      rw [List.getLast?_append_of_ne_nil _ hy] at hlast
      exact (List.dropLast_append_getLast? _ hlast).symm

theorem slice_transforms {s a b : List (Block Anchor)} {target : Nat}
    (hstart : byteLen (charsOf (tokensOf s)) ≤ target)
    (ha : a = [] ∨ byteLen (charsOf (tokensOf s)) + byteLen (charsOf (tokensOf a)) < target)
    (hb : ∀ c ∈ b.head?, target ≤ byteLen (charsOf (tokensOf s)) + byteLen (charsOf (tokensOf a)) +
      byteLen (charsOf c.tokens)) :
    Cursor.slice ⟨transforms s, transforms (a ++ b)⟩ target =
      some (transforms a, ⟨transforms (s ++ a), transforms b⟩) := by
  have hadv := @advance_eq _ (fun t : Transform Anchor => t.input.len) (fun stop => stop < target)
    (fun i j hij hj => by simp only [decide_eq_true_eq] at hj ⊢; omega)
    (transforms a) (transforms b) (inputLen (transforms s))
    (by
      rw [sum_input, inputLen_transforms]
      rcases ha with rfl | ha
      · exact .inl rfl
      · exact .inr (by simpa using ha))
    (by
      intro t ht
      rw [transforms, List.head?_map] at ht
      obtain ⟨c, hc, rfl⟩ := Option.map_eq_some_iff.mp ht
      have := hb c hc
      rw [sum_input, len_input, inputLen_transforms]
      simp only [decide_eq_false_iff_not]
      omega)
  rw [Cursor.slice, Cursor.start]
  rw [if_pos (by simpa using hstart), transforms_append, hadv, transforms_append]

section

variable (s : List (Block Anchor)) (b : Block Anchor) (r : List (Block Anchor))

theorem stop_transforms : Cursor.stop ⟨transforms s, transforms (b :: r)⟩ =
      byteLen (charsOf (tokensOf s)) + byteLen (charsOf b.tokens) := by
  rw [Cursor.stop, Cursor.start, inputLen_transforms, ← len_input]
  rfl

theorem next_transforms :
    Cursor.next ⟨transforms s, transforms (b :: r)⟩ = ⟨transforms (s ++ [b]), transforms r⟩ := by
  rw [Cursor.next, transforms_append]
  rfl

end

/-- What is pushed before an edit lacks a few characters at most, and so does what the cursor has
passed. -/
structure Copied (bold : List (Block Anchor)) (p n : List (Token Anchor)) (new s r : List (Block Anchor))
    (v w : List Char) : Prop where
  bold_eq : bold = s ++ r
  old : tokensOf s ++ ofChars v = p
  neat : Neat new
  new : tokensOf new ++ ofChars w = n

section

variable {new a s r : List (Block Anchor)} {c : Cursor Anchor} {edits : Patch} {target : Nat}

theorem copyBefore_run {text : List Char}
    (h : c.slice target = some (transforms a, ⟨transforms s, transforms (.run text :: r)⟩)) :
    copyBefore ⟨transforms new, c, edits⟩ target =
      if byteLen (charsOf (tokensOf s)) + byteLen text = target then
        some (transforms (pushRun (new ++ a) text), ⟨transforms (s ++ [.run text]), transforms r⟩)
      else some (transforms (new ++ a), ⟨transforms s, transforms (.run text :: r)⟩) := by
  have hstop := stop_transforms s (.run text) r
  simp only [Block.tokens, charsOf_ofChars] at hstop
  rw [transforms_pushRun, transforms_append, ← next_transforms, ← hstop, copyBefore, h]
  rfl

theorem copyBefore_other (h : c.slice target = some (transforms a, ⟨transforms s, transforms r⟩))
    (hr : ∀ text, r.head? ≠ some (.run text)) :
    copyBefore ⟨transforms new, c, edits⟩ target =
      some (transforms (new ++ a), ⟨transforms s, transforms r⟩) := by
  rw [transforms_append, copyBefore, h]
  cases r with
  | nil => rfl
  | cons b r =>
    cases b with
    | run text => exact absurd rfl (hr text)
    | inlay i => rfl

end

theorem exists_last_run {bs : List (Block Anchor)} {z : List (Token Anchor)} {c : Char}
    (h : tokensOf bs = z ++ [.inl c]) : ∃ bs' text, bs = bs' ++ [.run text] := by
  rcases List.eq_nil_or_concat bs with rfl | ⟨bs', b, rfl⟩
  · simp at h
  · cases b with
    | run text => exact ⟨bs', text, by simp⟩
    | inlay i =>
      have hlast := congrArg List.getLast? h
      simp [Block.tokens] at hlast

theorem copyBefore_spec (hbold : Whole bold) (h : Stands first bold p x t n st)
    (hx : EndsInChar x) {target : Nat} (htarget : target = byteLen (charsOf (p ++ x))) :
    ∃ new s r v w, copyBefore st target = some (transforms new, ⟨transforms s, transforms r⟩) ∧
      Copied bold (p ++ x) (n ++ x) new s r v w := by
  cases h with
  | @inside s v w w' r new edits hb hw' hp hxw ht hn hneat _ =>
    -- the edit is inside the run
    subst hp hxw
    have hpos := byteLen_pos hw'
    simp only [charsOf_append, charsOf_ofChars, byteLen_append] at htarget
    have hslice := @slice_transforms _ s [] (.run (v ++ (w ++ w')) :: r) target (by omega) (.inl rfl) (by
      intro c hc
      cases hc
      simp only [Block.tokens, charsOf_ofChars, byteLen_append, tokensOf_nil]
      omega)
    rw [List.nil_append, List.append_nil] at hslice
    refine ⟨new, s, _, v ++ w, w, ?_, hb, by simp, hneat, by rw [hn]⟩
    rw [copyBefore_run hslice, List.append_nil]
    refine if_neg ?_
    simp only [byteLen_append]
    omega
  | @ahead s r v x' new edits hb hp hxv hr hn hneat hhead _ =>
    subst hxv
    have hlen : target = byteLen (charsOf (tokensOf s)) + byteLen (charsOf x') := by
      rw [htarget, hp]
      simp [byteLen_append, Nat.add_assoc]
    have hold : ∀ a : List (Block Anchor), ∀ u : List Char, tokensOf a ++ ofChars u = x' →
        tokensOf (s ++ a) ++ ofChars u = p ++ (ofChars v ++ x') := by
      intro a u hau
      rw [tokensOf_append, hp, ← hau]
      simp
    have hnew : ∀ a : List (Block Anchor), ∀ u : List Char, tokensOf a ++ ofChars u = x' →
        tokensOf (new ++ a) ++ ofChars u = n ++ (ofChars v ++ x') := by
      intro a u hau
      rw [tokensOf_append, hn, ← hau]
      simp
    rcases hbold with hbold | hempty
    · have hneatr : Neat r := (hb ▸ hbold).of_append.2
      -- the blocks that are sliced can be appended
      have happend : ∀ {a b : List (Block Anchor)}, r = a ++ b → Neat (new ++ a) := by
        intro a b hab
        refine hneat.append (hab ▸ hneatr).of_append.1 ?_
        rcases hhead with hhead | ⟨-, hnil⟩
        · left
          intro text hrun
          rw [hab, List.head?_append, hrun] at hhead
          exact hhead text rfl
        · exact .inr hnil
      rcases split_cases hneatr.nonempty hr with ⟨a, b, hab, ha, hbt⟩ | ⟨a, u, w, b, hab, hu, hw, hau, ht⟩
      · rcases hx.suffix with hnil | ⟨z, c, hz⟩
        · -- nothing to copy
          subst hnil
          have hslice := @slice_transforms _ s [] r target (by omega) (.inl rfl) (by
            intro c _
            simp only [tokensOf_nil, hlen]
            simp [charsOf])
          rw [List.nil_append, List.append_nil] at hslice
          refine ⟨new, s, r, [], [], ?_, hb, by simpa using hold [] [] rfl, hneat, by
            simpa using hnew [] [] rfl⟩
          by_cases hrun : ∃ text r', r = .run text :: r'
          · obtain ⟨text, r', rfl⟩ := hrun
            have hpos := byteLen_pos (hneatr.nonempty text (by simp))
            rw [copyBefore_run hslice, List.append_nil]
            refine if_neg ?_
            simp only [charsOf, List.filterMap_nil, byteLen_nil] at hlen
            simp only [charsOf]
            omega
          · rw [copyBefore_other hslice, List.append_nil]
            intro text hhead
            obtain ⟨r', rfl⟩ := List.head?_eq_some_iff.mp hhead
            exact hrun ⟨text, r', rfl⟩
        · -- the last run that is copied ends where the edit starts
          obtain ⟨a, text, rfl⟩ := exists_last_run (ha.trans hz)
          rw [List.append_assoc, List.singleton_append] at hab
          have hpos := byteLen_pos (hneatr.nonempty text (by rw [hab]; simp))
          rw [← ha] at hlen
          simp only [tokensOf_append, tokensOf_cons, tokensOf_nil, Block.tokens, charsOf_append,
            charsOf_ofChars, byteLen_append, List.append_nil] at hlen
          have hslice := @slice_transforms _ s a (.run text :: b) target (by omega) (.inr (by omega)) (by
            intro c hc
            cases hc
            simp only [Block.tokens, charsOf_ofChars]
            omega)
          rw [← hab] at hslice
          refine ⟨pushRun (new ++ a) text, s ++ a ++ [.run text], b, [], [], ?_, by rw [hb, hab]; simp,
            ?_, (happend hab).pushRun text, ?_⟩
          · rw [copyBefore_run hslice]
            refine if_pos ?_
            simp only [tokensOf_append, charsOf_append, byteLen_append]
            omega
          · rw [← hold (a ++ [.run text]) [] (by rw [ofChars_nil, List.append_nil]; exact ha),
              List.append_assoc]
          · rw [← hnew (a ++ [.run text]) [] (by rw [ofChars_nil, List.append_nil]; exact ha)]
            simp [Block.tokens]
      · -- the edit is inside a run
        subst hau
        have hposu := byteLen_pos hu
        have hposw := byteLen_pos hw
        simp only [charsOf_append, charsOf_ofChars, byteLen_append] at hlen
        have hslice := @slice_transforms _ s a (.run (u ++ w) :: b) target (by omega) (.inr (by omega)) (by
          intro c hc
          cases hc
          simp only [Block.tokens, charsOf_ofChars, byteLen_append]
          omega)
        rw [← hab] at hslice
        refine ⟨new ++ a, s ++ a, .run (u ++ w) :: b, u, u, ?_, by rw [hb, hab]; simp, hold a u rfl,
          happend hab, hnew a u rfl⟩
        rw [copyBefore_run hslice]
        refine if_neg ?_
        simp only [tokensOf_append, charsOf_append, byteLen_append]
        omega
    · -- the empty snapshot
      have hnil : tokensOf s = [] ∧ tokensOf r = [] := by
        have htokens := congrArg tokensOf (hempty.symm.trans hb)
        rw [tokensOf_append] at htokens
        exact List.append_eq_nil_iff.mp htokens.symm
      rw [hnil.2] at hr
      obtain ⟨rfl, rfl⟩ := List.append_eq_nil_iff.mp hr.symm
      rw [hnil.1] at hlen
      have hzero : target = 0 := hlen
      have hslice := @slice_transforms _ s [] r target (by rw [hnil.1]; exact Nat.zero_le _) (.inl rfl)
        (fun c _ => by rw [hzero]; exact Nat.zero_le _)
      rw [List.nil_append, List.append_nil] at hslice
      have hold' := hold [] [] rfl
      have hnew' := hnew [] [] rfl
      rw [List.append_nil] at hold' hnew'
      rcases List.append_eq_singleton_iff.mp (hempty.symm.trans hb).symm with ⟨rfl, rfl⟩ | ⟨rfl, rfl⟩
      · refine ⟨new, [.run []], [], [], [], ?_, hb, hold', hneat, hnew'⟩
        rw [copyBefore_run hslice, List.append_nil, if_pos (by rw [hzero]; rfl)]
        rfl
      · refine ⟨new, [.run []], [], [], [], ?_, hb, hold', hneat, hnew'⟩
        rw [copyBefore_other hslice (by simp), List.append_nil]

/-! ## One edit -/

theorem ofChars_eq_append {text : List Char} {a b : List (Token Anchor)} (h : ofChars text = a ++ b) :
    ∃ s t, text = s ++ t ∧ a = ofChars s ∧ b = ofChars t := by
  obtain ⟨s, t, hst, ha, hb⟩ := List.map_eq_append_iff.mp h
  exact ⟨s, t, hst, ha.symm, hb.symm⟩

/-- Tokens start with characters: how far they reach decides which part is longer. -/
theorem prefix_cases {r : List (Token Anchor)} {y : List Char} (h : x ++ t = ofChars y ++ r) :
    (byteLen y ≤ byteLen (charsOf x) ∧ ∃ x', x = ofChars y ++ x' ∧ r = x' ++ t) ∨
      (byteLen (charsOf x) < byteLen y ∧
        ∃ w w', y = w ++ w' ∧ w' ≠ [] ∧ x = ofChars w ∧ t = ofChars w' ++ r) := by
  rcases List.append_eq_append_iff.mp h with ⟨z, hy, ht⟩ | ⟨z, hx, hr⟩
  · obtain ⟨w, w', rfl, rfl, rfl⟩ := ofChars_eq_append hy
    by_cases hw : w' = []
    · subst hw
      exact .inl ⟨by simp, [], by simp, by simpa using ht.symm⟩
    · have := byteLen_pos hw
      exact .inr ⟨by rw [charsOf_ofChars, byteLen_append]; omega, w, w', rfl, hw, rfl, ht⟩
  · exact .inl ⟨by rw [hx, charsOf_append, charsOf_ofChars, byteLen_append]; omega, z, hx, hr⟩

def fromEdit (buffer : Buffer Anchor) (start : Nat) (inlays : List (Inlay Anchor)) : List (Inlay Anchor) :=
  inlays.drop (inlays.findIdx fun probe => start ≤ buffer.toOffset probe.position)

theorem le_of_mem_fromEdit {inlays : List (Inlay Anchor)}
    (hsorted : inlays.Pairwise fun i j => buffer.offsetOf i ≤ buffer.offsetOf j) {start : Nat}
    {i : Inlay Anchor} (hi : i ∈ fromEdit buffer start inlays) : start ≤ buffer.offsetOf i := by
  rw [fromEdit] at hi
  cases hdrop : inlays.drop (inlays.findIdx fun probe => start ≤ buffer.toOffset probe.position) with
  | nil => rw [hdrop] at hi; cases hi
  | cons j js =>
    have hlt : inlays.findIdx (fun probe => start ≤ buffer.toOffset probe.position) < inlays.length := by
      by_contra hge
      rw [List.drop_eq_nil_of_le (Nat.le_of_not_lt hge)] at hdrop
      cases hdrop
    have hfirst := List.findIdx_getElem (w := hlt)
    rw [List.drop_eq_getElem_cons hlt, List.cons.injEq] at hdrop
    have hj : start ≤ buffer.offsetOf j := by
      rw [← hdrop.1]
      exact of_decide_eq_true hfirst
    have hpair := hsorted.sublist (List.drop_sublist
      (inlays.findIdx fun probe => start ≤ buffer.toOffset probe.position) inlays)
    rw [List.drop_eq_getElem_cons hlt, hdrop.1, hdrop.2] at hpair hi
    rcases List.mem_cons.mp hi with rfl | hi
    · exact hj
    · exact Nat.le_trans hj ((List.pairwise_cons.mp hpair).1 i hi)

theorem atOf_fromEdit {inlays : List (Inlay Anchor)} {start o : Nat} (ho : start ≤ o) :
    atOf buffer.offsetOf (buffer.visible (fromEdit buffer start inlays)) o =
      atOf buffer.offsetOf (buffer.visible inlays) o := by
  have hcut := List.take_append_drop
    (inlays.findIdx fun probe => start ≤ buffer.toOffset probe.position) inlays
  have hbefore : atOf buffer.offsetOf (buffer.visible
      (inlays.take (inlays.findIdx fun probe => start ≤ buffer.toOffset probe.position))) o = [] := by
    refine atOf_eq_nil fun i hi => ?_
    obtain ⟨k, hk⟩ := List.getElem?_of_mem (List.mem_of_mem_filter hi)
    rw [List.getElem?_take] at hk
    split at hk
    · next hlt =>
      obtain ⟨hlen, rfl⟩ := List.getElem?_eq_some_iff.mp hk
      have hnot : ¬ start ≤ buffer.toOffset inlays[k].position := by
        simpa using List.not_of_lt_findIdx hlt
      rw [Buffer.offsetOf]
      omega
    · cases hk
  conv_rhs => rw [← hcut, Buffer.visible, List.filter_append, atOf, List.filter_append]
  rw [Buffer.visible, atOf] at hbefore
  rw [hbefore]
  rfl

section

variable {inlays : List (Inlay Anchor)} {next : Option Edit} {edit : Edit}

theorem syncEdit_eq {c : Cursor Anchor} {ts₁ ts₂ ts₃ ts₄ : List (Transform Anchor)} {d₁ d₂ : Nat}
    (hcopy : copyBefore st edit.old.start = some (ts₁, c))
    (hsub₁ : Patch.checkedSub edit.old.start c.start.1 = some d₁)
    (hsub₂ : Patch.checkedSub edit.old.stop (c.seek edit.old.stop).start.1 = some d₂)
    (hpushed : pushUntil buffer ts₁ edit.new.start = some ts₂)
    (hinlays : pushInlays buffer edit.new.stop ts₂ (fromEdit buffer edit.new.start inlays) = some ts₃)
    (hrest : pushUntil buffer ts₃ edit.new.stop = some ts₄) :
    syncEdit inlays buffer next st edit = pushRemainder buffer next edit
      ⟨ts₄, c.seek edit.old.stop, st.inlayEdits.push
        ⟨⟨c.start.2 + d₁, (c.seek edit.old.stop).start.2 + d₂⟩, ⟨outputLen ts₂, outputLen ts₄⟩⟩⟩ := by
  rw [syncEdit, hcopy]
  simp only [Option.bind_eq_bind, Option.bind_some, hsub₁, hsub₂, hpushed]
  rw [fromEdit] at hinlays
  simp only [hinlays, Option.bind_some, hrest]

end

theorem pushRemainder_spec (hbold : Whole bold) {new s r b : List (Block Anchor)} {a y rest : List Char}
    {edits : Patch} {edit : Edit} {next : Option Edit}
    (hb : bold = s ++ r) (hp : tokensOf s ++ ofChars a = p) (hcut : x ++ t = ofChars y ++ tokensOf b)
    (hr : (r = [] ∧ a = [] ∧ y = [] ∧ b = []) ∨ (r = .run (a ++ y) :: b ∧ y ≠ []))
    (hn : tokensOf new = n) (hneat : Neat new)
    (hdescribes : Describes edits (utf8 (outOf p)) (utf8 (outOf n)))
    (hbuffer : buffer.text = charsOf n ++ (charsOf x ++ rest))
    (hold : edit.old.stop = byteLen (charsOf p)) (hnew : edit.new.stop = byteLen (charsOf n))
    (hnext : ∀ e ∈ next, e.old.start = edit.old.stop + byteLen (charsOf x))
    (hlast : next = none → t = []) :
    ∃ st, pushRemainder buffer next edit ⟨transforms new, ⟨transforms s, transforms r⟩, edits⟩ = some st ∧
      Stands False bold p x t n st := by
  have hin : edit.old.stop = byteLen (charsOf (tokensOf s)) + byteLen a := by
    rw [hold, ← hp, charsOf_append, charsOf_ofChars, byteLen_append]
  have hstop : Cursor.stop ⟨transforms s, transforms r⟩ = edit.old.stop + byteLen y := by
    rcases hr with ⟨rfl, rfl, rfl, rfl⟩ | ⟨rfl, -⟩
    · rw [Cursor.stop, Cursor.start, inputLen_transforms, hin]
      rfl
    · rw [stop_transforms, hin, Block.tokens, charsOf_ofChars, byteLen_append, Nat.add_assoc]
  rw [pushRemainder, hstop]
  rcases prefix_cases hcut with ⟨hle, x', rfl, hbt⟩ | ⟨hlt, w, w', rfl, hw', rfl, rfl⟩
  · -- the run ends before the next edit
    have hall : next.all (fun e => edit.old.stop + byteLen y ≤ e.old.start) = true := by
      cases hn : next with
      | none => rfl
      | some e =>
        have := hnext e hn
        rw [Option.all_some, decide_eq_true_eq]
        omega
    have hpush := @pushUntil_transforms _ new buffer y (charsOf x' ++ rest)
      (by rw [hbuffer, hn]; simp) (edit.new.stop + byteLen y) (by rw [hnew, hn])
    rw [if_pos hall, checkedSub_add_left]
    simp only [Option.bind_eq_bind, Option.bind_some, hpush]
    have hn' : tokensOf (pushRun new y) = n ++ ofChars y := by rw [tokensOf_pushRun, hn]
    rcases hr with ⟨rfl, rfl, rfl, rfl⟩ | ⟨rfl, hy⟩
    · refine ⟨_, rfl, ?_⟩
      have hnil : Cursor.next ⟨transforms s, transforms ([] : List (Block Anchor))⟩ =
          ⟨transforms s, transforms []⟩ := by
        rw [Cursor.next]
        simp [transforms]
      rw [hnil]
      exact .ahead hb (by simpa using hp) rfl hbt hn' (hneat.pushRun []) (.inl (by simp)) hdescribes
    · rw [next_transforms]
      refine ⟨_, rfl, .ahead (by rw [hb]; simp) ?_ rfl hbt hn' (hneat.pushRun y) ?_ hdescribes⟩
      · rw [← hp]
        simp [Block.tokens]
      · left
        rcases hbold with hbold | hempty
        · intro text hhead
          obtain ⟨b', rfl⟩ := List.head?_eq_some_iff.mp hhead
          rw [hb] at hbold
          exact (List.isChain_cons_cons.mp hbold.of_append.2.chain).1 ⟨rfl, rfl⟩
        · have hmem : Block.run (a ++ y) ∈ bold := by rw [hb]; simp
          rw [hempty, List.mem_singleton, Block.run.injEq] at hmem
          exact absurd (List.append_eq_nil_iff.mp hmem).2 hy
  · -- the next edit is in the same run
    have hall : ¬ next.all (fun e => edit.old.stop + byteLen (w ++ w') ≤ e.old.start) = true := by
      cases hn : next with
      | none =>
        have hnil := hlast hn
        exact absurd (ofChars_eq_nil.mp (List.append_eq_nil_iff.mp hnil).1) hw'
      | some e =>
        have := hnext e hn
        rw [Option.all_some, decide_eq_true_eq]
        omega
    rw [if_neg hall]
    rcases hr with ⟨-, -, hnil, -⟩ | ⟨rfl, -⟩
    · exact absurd (List.append_eq_nil_iff.mp hnil).2 hw'
    · exact ⟨_, rfl, .inside hb hw' hp rfl rfl hn hneat hdescribes⟩

/-- **One round of the loop.** The tokens `m` of the edit are replaced by those of the new text. -/
theorem syncEdit_spec (hbold : Whole bold) {inlays : List (Inlay Anchor)}
    (hsorted : inlays.Pairwise fun i j => buffer.offsetOf i ≤ buffer.offsetOf j)
    (hin : InText buffer.offsetOf (buffer.visible inlays) 0 buffer.text)
    {m q x' t' : List (Token Anchor)} (h : Stands first bold p x (m ++ q) n st)
    (hx : EndsInChar x) (hq : ∀ i, q.head? ≠ some (.inr i)) (hq' : q = x' ++ t')
    {text rest : List Char} (hbuffer : buffer.text = charsOf (n ++ x) ++ text ++ (charsOf x' ++ rest))
    {edit : Edit} (h1 : edit.old.start = byteLen (charsOf (p ++ x)))
    (h2 : edit.old.stop = byteLen (charsOf (p ++ x ++ m)))
    (h3 : edit.new.start = byteLen (charsOf (n ++ x)))
    (h4 : edit.new.stop = byteLen (charsOf (n ++ x)) + byteLen text)
    {next : Option Edit} (hnext : ∀ e ∈ next, e.old.start = edit.old.stop + byteLen (charsOf x'))
    (hlast : next = none → t' = []) :
    ∃ st', syncEdit inlays buffer next st edit = some st' ∧ Stands False bold (p ++ x ++ m) x' t'
        (n ++ x ++ full (atOf buffer.offsetOf (buffer.visible inlays)) edit.new.start text) st' := by
  obtain ⟨new, s, r, v, w, hcopy, hcopied⟩ := copyBefore_spec hbold h hx h1
  have htokens : tokensOf bold = p ++ x ++ m ++ q := by rw [h.tokens]; simp
  obtain ⟨s', r', hseek, hb', hr'⟩ := seek_transforms hbold hcopied.bold_eq htokens hq
  rw [← h2] at hseek
  -- what is left of the run in which the edit ends
  obtain ⟨a, y, b, hold', hqy, hrun⟩ : ∃ a y b, tokensOf s' ++ ofChars a = p ++ x ++ m ∧
      q = ofChars y ++ tokensOf b ∧ ((r' = [] ∧ a = [] ∧ y = [] ∧ b = []) ∨
        (r' = .run (a ++ y) :: b ∧ y ≠ [])) := by
    rcases hr' with ⟨hr', hs', hq0⟩ | ⟨a, y, b, hr', hy, hs', hqy⟩
    · exact ⟨[], [], [], by simpa using hs', by simpa using hq0, .inl ⟨hr', rfl, rfl, rfl⟩⟩
    · exact ⟨a, y, b, hs', hqy, .inr ⟨hr', hy⟩⟩
  have hin₁ : edit.old.start = byteLen (charsOf (tokensOf s)) + byteLen v := by
    rw [h1, ← hcopied.old, charsOf_append, charsOf_ofChars, byteLen_append]
  have hin₂ : edit.old.stop = byteLen (charsOf (tokensOf s')) + byteLen a := by
    rw [h2, ← hold', charsOf_append, charsOf_ofChars, byteLen_append]
  -- the new text before the edit
  have hnew : charsOf (n ++ x) = charsOf (tokensOf new) ++ w := by
    rw [← hcopied.new, charsOf_append, charsOf_ofChars]
  have hpre := @pushUntil_transforms _ new buffer w (text ++ (charsOf x' ++ rest))
    (by rw [hbuffer, hnew]; simp) edit.new.start (by rw [h3, hnew, byteLen_append])
  have htok₂ : tokensOf (pushRun new w) = n ++ x := by rw [tokensOf_pushRun, hcopied.new]
  -- the inlays of the edit
  have hsub : (buffer.visible (fromEdit buffer edit.new.start inlays)).Sublist (buffer.visible inlays) :=
    (List.drop_sublist _ inlays).filter _
  obtain ⟨bs, u, u', hinlays, hneat, rfl, hchars, htok₃⟩ :=
    @pushInlays_transforms _ buffer (charsOf x' ++ rest) edit.new.stop
      (fromEdit buffer edit.new.start inlays) (pushRun new w) edit.new.start text
      (by rw [htok₂, hbuffer]) (by rw [htok₂, h3]) (by rw [h4, h3]) (hcopied.neat.pushRun w)
      ((hsorted.sublist List.filter_sublist).sublist hsub)
      (fun i hi _ => le_of_mem_fromEdit hsorted hi) (fun i hi => hin i (hsub.subset hi))
  have hfull : full (atOf buffer.offsetOf (buffer.visible (fromEdit buffer edit.new.start inlays)))
      edit.new.start (u ++ u') =
      full (atOf buffer.offsetOf (buffer.visible inlays)) edit.new.start (u ++ u') :=
    full_congr fun k _ => atOf_fromEdit (Nat.le_add_right _ _)
  rw [htok₂] at hchars
  rw [htok₂, hfull] at htok₃
  have hrest := @pushUntil_transforms _ bs buffer u' (charsOf x' ++ rest)
    (by rw [hbuffer, hchars]; simp) edit.new.stop
    (by rw [h4, hchars, byteLen_append, byteLen_append, Nat.add_assoc])
  have htok₄ : tokensOf (pushRun bs u') = n ++ x ++
      full (atOf buffer.offsetOf (buffer.visible inlays)) edit.new.start (u ++ u') := by
    rw [tokensOf_pushRun, htok₃]
  generalize hM : full (atOf buffer.offsetOf (buffer.visible inlays)) edit.new.start (u ++ u') = M at *
  -- the edit of the snapshot
  have hdescribes := describes_push (describes_copy h.describes (utf8 (outOf x))) (utf8 (outOf m))
    (utf8 (outOf M))
  have hedit : Patch.editAt (utf8 (outOf p) ++ utf8 (outOf x)).length
      (utf8 (outOf n) ++ utf8 (outOf x)).length (utf8 (outOf m)) (utf8 (outOf M)) =
      ⟨⟨outputLen (transforms s) + byteLen v, outputLen (transforms s') + byteLen a⟩,
        ⟨outputLen (transforms (pushRun new w)), outputLen (transforms (pushRun bs u'))⟩⟩ := by
    have hout₁ : outputLen (transforms s) + byteLen v = byteLen (outOf (p ++ x)) := by
      rw [outputLen_transforms, ← hcopied.old, outOf_append, outOf_ofChars, byteLen_append]
    have hout₂ : outputLen (transforms s') + byteLen a = byteLen (outOf (p ++ x ++ m)) := by
      rw [outputLen_transforms, ← hold', outOf_append, outOf_ofChars, byteLen_append]
    rw [Patch.editAt, hout₁, hout₂, outputLen_transforms, outputLen_transforms, htok₂, htok₄]
    simp [byteLen_append, Nat.add_assoc]
  rw [hedit, ← utf8_append, ← utf8_append, ← utf8_append, ← utf8_append, ← outOf_append, ← outOf_append,
    ← outOf_append, ← outOf_append] at hdescribes
  have heq := @syncEdit_eq _ st buffer inlays next edit ⟨transforms s, transforms r⟩ _ _ _ _
    (byteLen v) (byteLen a) hcopy
    (by rw [Cursor.start, inputLen_transforms, hin₁, checkedSub_add_left])
    (by rw [hseek, Cursor.start, inputLen_transforms, hin₂, checkedSub_add_left]) hpre hinlays hrest
  rw [hseek] at heq
  rw [heq, Cursor.start, Cursor.start]
  have hcharsM : charsOf (n ++ x ++ M) = charsOf (n ++ x) ++ (u ++ u') := by
    rw [charsOf_append, ← hM, charsOf_full]
  exact pushRemainder_spec hbold hb' hold' (hq'.symm.trans hqy) hrun htok₄ (hneat.pushRun u') hdescribes
    (by rw [hbuffer, hcharsM]) h2 (by rw [hcharsM, byteLen_append (charsOf (n ++ x)), h4]) hnext hlast

end SpkEditor.Inlays
