import SpkEditor.Display.InlayLoop

/-!
# The inlay map refines a buffer with inlays

Whatever is synchronized and spliced, the snapshot is the text of the buffer with the texts of the valid
inlays at the offsets of their anchors, and the edits that are returned are exact.

The anchors of a multibuffer are a parameter. What is needed of them: they are ordered as their offsets
are, their order does not change, and they move with the text. An anchor that no edit touches stays in its
place in the text, and an anchor that an edit touches is inside of what the edit has written or at its ends.
-/

namespace SpkEditor.Inlays

open InlayMap (insertInlay)
open Patch (Describes imageFrom)

variable {Anchor : Type}

variable {inlays : List (Inlay Anchor)} {m : InlayMap Anchor} {edits : List Edit}

def textAt (buffer : Buffer Anchor) (inlays : List (Inlay Anchor)) (o : Nat) : List Char :=
  (inlays.filter fun i => buffer.isValid i.position ∧ buffer.toOffset i.position = o).flatMap Inlay.text

/-- A text from an offset on, with the texts of the inlays inserted. -/
def shown (buffer : Buffer Anchor) (inlays : List (Inlay Anchor)) : Nat → List Char → List Char
  | o, [] => textAt buffer inlays o
  | o, c :: text => textAt buffer inlays o ++ c :: shown buffer inlays (o + c.utf8Size) text

def Transform.inlay? : Transform Anchor → Option (Inlay Anchor)
  | .isomorphic _ => none
  | .inlay i => some i

/-- **The snapshot is right.** -/
structure Right (m : InlayMap Anchor) : Prop where
  summary : inputSummary m.snapshot.transforms = .ofText m.snapshot.buffer.text
  apart : m.snapshot.transforms.IsChain fun a b => ¬ (a.isIsomorphic = true ∧ b.isIsomorphic = true)
  /-- every inlay whose anchor is valid occurs once -/
  once : m.snapshot.transforms.filterMap Transform.inlay? =
    m.inlays.filter fun i => m.snapshot.buffer.isValid i.position
  ids : (m.inlays.map Inlay.id).Nodup
  text : m.snapshot.text = some (shown m.snapshot.buffer m.inlays 0 m.snapshot.buffer.text)

/-- **The edits are exact**: they are sorted, and replacing them in the old text gives the new one. -/
structure Exact (m m' : InlayMap Anchor) (edits : Patch) : Prop where
  sorted : edits.Pairwise fun a b => a.old.stop < b.old.start ∧ a.new.stop < b.new.start
  applied : ∃ old new, m.snapshot.text = some old ∧ m'.snapshot.text = some new ∧
    edits.applyTo (utf8 old) (utf8 new) = utf8 new

/-- The anchors of a buffer, as far as the map relies on them. -/
structure Buffer.Lawful (b : Buffer Anchor) : Prop where
  boundary : ∀ a, Chunked.Boundary b.text (b.toOffset a)
  order : ∀ a a', b.cmp a a' ≠ .gt → b.toOffset a ≤ b.toOffset a'
  total : ∀ a a', b.cmp a a' = .gt → b.cmp a' a ≠ .gt
  trans : ∀ a a' a'', b.cmp a a' ≠ .gt → b.cmp a' a'' ≠ .gt → b.cmp a a'' ≠ .gt

/-- An anchor moves with the text. -/
def Follows (old new : Buffer Anchor) (edits : List Edit) (a : Anchor) : Prop :=
  (∃ e ∈ edits, (e.old.start ≤ old.toOffset a ∧ old.toOffset a ≤ e.old.stop) ∧
      e.new.start ≤ new.toOffset a ∧ new.toOffset a ≤ e.new.stop) ∨
    (Untouched edits (old.toOffset a) ∧ new.toOffset a = Patch.oldToNew edits (old.toOffset a) ∧
      new.isValid a = old.isValid a)

/-- What `sync` is given. -/
structure SyncInput (m : InlayMap Anchor) (buffer : Buffer Anchor) (edits : List Edit) : Prop where
  lawful : buffer.Lawful
  cmp : buffer.cmp = m.snapshot.buffer.cmp
  exact : ExactEdits edits m.snapshot.buffer.text buffer.text
  follows : ∀ i ∈ m.inlays, Follows m.snapshot.buffer buffer
    (withTrailingEdit m.snapshot.buffer buffer edits) i.position

/-- What `splice` is given: inlays with fresh ids. -/
structure SpliceInput (m : InlayMap Anchor) (toInsert : List (Inlay Anchor)) : Prop where
  nodup : (toInsert.map Inlay.id).Nodup
  fresh : ∀ i ∈ toInsert, ∀ j ∈ m.inlays, j.id ≠ i.id

/-- The maps that can be reached. -/
inductive Reachable : InlayMap Anchor → Prop
  | new {buffer : Buffer Anchor} : buffer.Lawful → Reachable (InlayMap.new buffer)
  | sync {m m' : InlayMap Anchor} {buffer : Buffer Anchor} {edits : List Edit} {out : Patch} :
      Reachable m → SyncInput m buffer edits → m.sync buffer edits = some (m', out) → Reachable m'
  | splice {m m' : InlayMap Anchor} {toRemove : List InlayId} {toInsert : List (Inlay Anchor)}
      {out : Patch} :
      Reachable m → SpliceInput m toInsert → m.splice toRemove toInsert = some (m', out) → Reachable m'

theorem agrees_of {old new : Nat → List (Inlay Anchor)} {o n : Nat}
    {told tnew : List Char} (h : Changes o n edits told tnew)
    (hkey : ∀ x, o < x → Untouched edits x → old x = new (imageFrom o n edits x)) :
    Agrees old new o n edits := by
  induction h with
  | @same o n text =>
    intro k hk
    have := hkey (o + k) (by omega) (by simp [Untouched])
    rw [imageFrom, Nat.add_sub_cancel_left] at this
    exact this
  | @edit o n edits told tnew kept deleted inserted hrest ih =>
    refine ⟨?_, ih ?_⟩
    · intro k hk hlt
      simp only at hlt
      have := hkey (o + k) (by omega) (by
        intro e he
        rcases List.mem_cons.mp he with rfl | he
        · exact .inl hlt
        · have := hrest.le e he
          exact .inl (by omega))
      rw [imageFrom, if_pos hlt, Nat.add_sub_cancel_left] at this
      exact this
    · intro x hx hu
      have := hkey x (by omega) (untouched_cons.mpr ⟨.inr hx, hu⟩)
      rw [imageFrom, if_neg (by simp only; omega), if_neg (by simp only; omega)] at this
      exact this

theorem atOf_eq_of_follows {old new : Buffer Anchor} (hexact : ExactEdits edits old.text new.text)
    (hfollows : ∀ i ∈ inlays, Follows old new edits i.position) {x : Nat} (hx : Untouched edits x) :
    atOf old.offsetOf (old.visible inlays) x =
      atOf new.offsetOf (new.visible inlays) (imageFrom 0 0 edits x) := by
  rw [atOf, atOf, Buffer.visible, Buffer.visible, List.filter_filter, List.filter_filter]
  refine List.filter_congr fun i hi => ?_
  obtain ⟨-, -, hy⟩ := hexact.changes.image_untouched (Nat.zero_le x) hx
  rw [Buffer.offsetOf, Buffer.offsetOf]
  rcases hfollows i hi with ⟨e, he, hold, hnew⟩ | ⟨hu, himage, hvalid⟩
  · -- the anchor is elsewhere before and after
    have h1 := hx e he
    have h2 := hy e he
    rw [decide_eq_false (by omega : ¬ old.toOffset i.position = x),
      decide_eq_false (by omega : ¬ new.toOffset i.position = imageFrom 0 0 edits x)]
    rfl
  · rw [Patch.oldToNew_eq hexact.separated] at himage
    rw [himage, hvalid]
    by_cases heq : old.toOffset i.position = x
    · rw [heq]
      simp
    · have hne : imageFrom 0 0 edits (old.toOffset i.position) ≠ imageFrom 0 0 edits x := fun h =>
        heq (hexact.changes.image_inj (Nat.zero_le _) (Nat.zero_le _) hu hx h)
      rw [decide_eq_false heq, decide_eq_false hne]

/-! ## A snapshot and its tokens -/

def Shows (s : Snapshot Anchor) (ts : List (Token Anchor)) : Prop :=
  ∃ bs, Whole bs ∧ s.transforms = transforms bs ∧ tokensOf bs = ts

theorem Whole.apart {bs : List (Block Anchor)} (h : Whole bs) :
    (transforms bs).IsChain fun a b => ¬ (a.isIsomorphic = true ∧ b.isIsomorphic = true) := by
  rcases h with h | rfl
  · rw [transforms, List.isChain_map]
    refine h.chain.imp fun a b hab hiso => hab ?_
    cases a with
    | run => cases b with
      | run => exact ⟨rfl, rfl⟩
      | inlay => exact absurd hiso.2 (by simp [Block.transform, Transform.isIsomorphic])
    | inlay => exact absurd hiso.1 (by simp [Block.transform, Transform.isIsomorphic])
  · exact List.isChain_singleton _

theorem inlays_transforms (bs : List (Block Anchor)) :
    (transforms bs).filterMap Transform.inlay? = inlaysOf (tokensOf bs) := by
  induction bs with
  | nil => rfl
  | cons b bs ih =>
    rw [tokensOf_cons, inlaysOf_append, ← ih]
    cases b with
    | run text => exact (congrArg (· ++ _) (inlaysOf_ofChars text)).symm
    | inlay i => rfl

section

variable {s : Snapshot Anchor} {ts : List (Token Anchor)} (h : Shows s ts)
  (hbuffer : charsOf ts = s.buffer.text)
include h hbuffer

theorem Shows.text : s.text = some (outOf ts) := by
  obtain ⟨bs, -, hts, rfl⟩ := h
  have := chunks_transforms [] bs []
  rw [List.nil_append, List.append_nil, hbuffer, ← hts] at this
  exact this

theorem Shows.checkInvariants : checkInvariants s := by
  obtain ⟨bs, hwhole, hts, rfl⟩ := h
  rw [Inlays.checkInvariants, hts, inputSummary_transforms, hbuffer]
  exact ⟨rfl, hwhole.apart⟩

end

theorem charsOf_bufferWoven (b : Buffer Anchor) (inlays : List (Inlay Anchor)) :
    charsOf (b.woven inlays) = b.text :=
  charsOf_full 0 b.text

/-! ## Synchronizing -/

theorem Buffer.Lawful.inText {b : Buffer Anchor} (h : b.Lawful) (inlays : List (Inlay Anchor)) :
    InText b.offsetOf inlays 0 b.text := by
  intro i _
  obtain ⟨s, t, htext, hlen⟩ := h.boundary i.position
  exact ⟨s, t, htext, by rw [Buffer.offsetOf, ← hlen, Nat.zero_add]⟩

def Sorted (b : Buffer Anchor) (inlays : List (Inlay Anchor)) : Prop :=
  inlays.Pairwise fun i j => b.cmp i.position j.position ≠ .gt

theorem Sorted.offsets {b : Buffer Anchor} (h : b.Lawful)
    (hs : Sorted b inlays) : inlays.Pairwise fun i j => b.offsetOf i ≤ b.offsetOf j :=
  List.Pairwise.imp (fun hij => h.order _ _ hij) hs

/-- **A change of the buffer, of the inlays or of both**: wherever no edit touches the text, the inlays
have not changed. -/
theorem sync_spec {snapshot : Snapshot Anchor} {buffer : Buffer Anchor} (hlawful : buffer.Lawful)
    (hsorted : Sorted buffer inlays) {old : Nat → List (Inlay Anchor)}
    (hshows : Shows snapshot (full old 0 snapshot.buffer.text))
    (hexact : ExactEdits (withTrailingEdit snapshot.buffer buffer edits) snapshot.buffer.text buffer.text)
    (hkey : ∀ x, Untouched (withTrailingEdit snapshot.buffer buffer edits) x →
      old x = atOf buffer.offsetOf (buffer.visible inlays)
        (imageFrom 0 0 (withTrailingEdit snapshot.buffer buffer edits) x)) :
    ∃ snapshot' out, InlayMap.sync ⟨snapshot, inlays⟩ buffer edits = some (⟨snapshot', inlays⟩, out) ∧
      snapshot'.buffer = buffer ∧ Shows snapshot' (buffer.woven inlays) ∧
      Describes out (utf8 (outOf (full old 0 snapshot.buffer.text)))
        (utf8 (outOf (buffer.woven inlays))) := by
  unfold InlayMap.sync
  simp only
  revert hexact hkey
  generalize withTrailingEdit snapshot.buffer buffer edits = edits
  intro hexact hkey
  cases edits with
  | nil =>
    -- the text is the same, and so are the inlays everywhere
    have htext := hexact.changes.eq_of_nil
    have htokens : full old 0 snapshot.buffer.text = buffer.woven inlays := by
      rw [Buffer.woven, htext]
      refine full_congr fun k _ => ?_
      have := hkey (0 + k) (by simp [Untouched])
      rw [imageFrom, Nat.sub_zero, Nat.zero_add, Nat.zero_add] at this
      rw [Nat.zero_add]
      exact this
    refine ⟨_, _, rfl, rfl, ?_, ?_⟩
    · rw [← htokens]
      exact hshows
    · rw [← htokens]
      exact Patch.describes_nil _
  | cons e edits =>
    obtain ⟨bold, hbold, htransforms, htokens⟩ := hshows
    have hagrees := agrees_of hexact.changes fun x _ hx => hkey x hx
    have hzero : 0 < e.old.start → old 0 = atOf buffer.offsetOf (buffer.visible inlays) 0 := by
      intro hpos
      have hu : Untouched (e :: edits) 0 := by
        intro e' he'
        rcases List.mem_cons.mp he' with rfl | he'
        · exact .inl hpos
        · have := List.rel_of_pairwise_cons (Patch.Separated.pairwise hexact.separated
            fun e he => ⟨(hexact.changes.le e he).2.1, (hexact.changes.le e he).2.2.2⟩) he'
          exact .inl (by omega)
      have := hkey 0 hu
      rw [imageFrom, if_pos hpos] at this
      exact this
    obtain ⟨st, hsync, hsynced⟩ := syncEdits_whole hbold htokens (hsorted.offsets hlawful)
      (hlawful.inText _) hexact hagrees hzero
    obtain ⟨bs, r, hnew, hrest, hneat, hd⟩ := hsynced.exists_blocks
    have hdescribes := hsynced.describes
    rw [htokens] at hdescribes
    -- an empty tree gets one transform
    have hshows' : Shows ⟨buffer, if (st.newTransforms ++ st.cursor.rest).isEmpty then [.isomorphic .zero]
        else st.newTransforms ++ st.cursor.rest, snapshot.version + 1⟩ (buffer.woven inlays) := by
      rw [hnew, hrest, ← transforms_append]
      generalize bs ++ r = bs at hneat hd
      cases bs with
      | nil => exact ⟨[.run []], .inr rfl, rfl, hd⟩
      | cons b bs => exact ⟨b :: bs, .inl hneat, rfl, hd⟩
    rw [if_neg (List.cons_ne_nil e edits), htransforms, hsync]
    refine ⟨_, _, if_pos (hshows'.checkInvariants (charsOf_bufferWoven buffer inlays)), rfl, hshows', ?_⟩
    exact hdescribes

/-! ## Splicing -/

section

variable {b : Buffer Anchor}

theorem insertInlay_perm (inlays : List (Inlay Anchor)) (i : Inlay Anchor) :
    (insertInlay b inlays i).Perm (i :: inlays) := by
  refine List.perm_middle.trans ?_
  rw [List.take_append_drop]

theorem foldl_insertInlay_perm (toInsert inlays : List (Inlay Anchor)) :
    (toInsert.foldl (insertInlay b) inlays).Perm (toInsert ++ inlays) := by
  induction toInsert generalizing inlays with
  | nil => exact .refl _
  | cons i toInsert ih =>
    exact (ih _).trans ((List.Perm.append_left toInsert (insertInlay_perm inlays i)).trans
      List.perm_middle)

theorem Sorted.insertInlay (h : b.Lawful) (hs : Sorted b inlays)
    (i : Inlay Anchor) : Sorted b (InlayMap.insertInlay b inlays i) := by
  rw [InlayMap.insertInlay]
  generalize hix : inlays.findIdx (fun probe => b.cmp probe.position i.position = .gt) = ix
  have hbefore : ∀ j ∈ inlays.take ix, b.cmp j.position i.position ≠ .gt := by
    intro j hj
    obtain ⟨k, hk, rfl⟩ := List.mem_take_iff_getElem.mp hj
    have := List.not_of_lt_findIdx (hix ▸ (by omega : k < ix))
    simpa using this
  have hcut : Sorted b (inlays.take ix ++ inlays.drop ix) := by rwa [List.take_append_drop]
  obtain ⟨htake, hdrop, hcross⟩ := List.pairwise_append.mp hcut
  -- the first inlay behind the new one is after it, and so are the others
  have hbehind : ∀ j ∈ inlays.drop ix, b.cmp i.position j.position ≠ .gt := by
    intro j hj
    have hlt : ix < inlays.length := by
      by_contra hge
      rw [List.drop_eq_nil_of_le (by omega)] at hj
      cases hj
    have hfirst : b.cmp (inlays.get ⟨ix, hlt⟩).position i.position = .gt := by
      subst hix
      simpa using List.findIdx_getElem (w := hlt)
    have hle := h.total _ _ hfirst
    rw [List.drop_eq_getElem_cons hlt] at hj hdrop
    rcases List.mem_cons.mp hj with rfl | hj
    · exact hle
    · exact h.trans _ _ _ hle ((List.pairwise_cons.mp hdrop).1 j hj)
  refine List.pairwise_append.mpr ⟨htake, List.pairwise_cons.mpr ⟨hbehind, hdrop⟩, ?_⟩
  intro j hj k hk
  rcases List.mem_cons.mp hk with rfl | hk
  · exact hbefore j hj
  · exact hcross j hj k hk

theorem Sorted.foldl_insertInlay (h : b.Lawful) (toInsert : List (Inlay Anchor))
    (hs : Sorted b inlays) : Sorted b (toInsert.foldl (InlayMap.insertInlay b) inlays) := by
  induction toInsert generalizing inlays with
  | nil => exact hs
  | cons i toInsert ih => exact ih (hs.insertInlay h i)

theorem filter_foldl_insertInlay {p : Inlay Anchor → Bool} {toInsert : List (Inlay Anchor)}
    (h : ∀ i ∈ toInsert, p i = false) (inlays : List (Inlay Anchor)) :
    (toInsert.foldl (insertInlay b) inlays).filter p = inlays.filter p := by
  induction toInsert generalizing inlays with
  | nil => rfl
  | cons i toInsert ih =>
    have hi : ¬ p i = true := by simp [h i (by simp)]
    rw [List.foldl_cons, ih fun j hj => h j (List.mem_cons_of_mem i hj), insertInlay, List.filter_append,
      List.filter_cons_of_neg hi, ← List.filter_append, List.take_append_drop]

theorem atOf_splice {toInsert : List (Inlay Anchor)} {toRemove : List InlayId} {x : Nat}
    (hx : ∀ i ∈ (inlays.filter fun i => i.id ∈ toRemove) ++ toInsert, b.toOffset i.position ≠ x) :
    atOf b.offsetOf (b.visible inlays) x =
      atOf b.offsetOf (b.visible (toInsert.foldl (insertInlay b)
        (inlays.filter fun i => i.id ∉ toRemove))) x := by
  rw [atOf, atOf, Buffer.visible, Buffer.visible, List.filter_filter, List.filter_filter,
    filter_foldl_insertInlay, List.filter_filter]
  · refine List.filter_congr fun i hi => ?_
    by_cases hmem : i.id ∈ toRemove
    · have := hx i (List.mem_append_left _ (List.mem_filter.mpr ⟨hi, by simpa using hmem⟩))
      simp [Buffer.offsetOf, this]
    · simp [hmem]
  · intro i hi
    have := hx i (List.mem_append_right _ hi)
    simp [Buffer.offsetOf, this]

end

/-- **The invariant of an inlay map.** -/
structure Inv (m : InlayMap Anchor) : Prop where
  lawful : m.snapshot.buffer.Lawful
  shows : Shows m.snapshot (m.snapshot.buffer.woven m.inlays)
  sorted : Sorted m.snapshot.buffer m.inlays
  ids : (m.inlays.map Inlay.id).Nodup

theorem Inv.new {buffer : Buffer Anchor} (h : buffer.Lawful) : Inv (InlayMap.new buffer) := by
  refine ⟨h, ?_, List.Pairwise.nil, List.nodup_nil⟩
  have htokens : buffer.woven [] = ofChars buffer.text := full_nil buffer.offsetOf 0 buffer.text
  change Shows _ (buffer.woven [])
  rw [htokens]
  refine ⟨[.run buffer.text], ?_, rfl, List.append_nil _⟩
  by_cases htext : buffer.text = []
  · exact .inr (by rw [htext])
  · refine .inl ⟨?_, List.isChain_singleton _⟩
    intro text hmem
    obtain rfl : text = buffer.text := by simpa using hmem
    exact htext

theorem outOf_before {ats : Nat → List (Inlay Anchor)} (o : Nat) :
    outOf (before ats o) = (ats o).flatMap Inlay.text := by
  rw [before, outOf, List.flatMap_map]
  rfl

theorem outOf_full {b : Buffer Anchor} (o : Nat) (text : List Char) :
    outOf (full (atOf b.offsetOf (b.visible inlays)) o text) = shown b inlays o text := by
  have hbefore : ∀ o, outOf (before (atOf b.offsetOf (b.visible inlays)) o) = textAt b inlays o := by
    intro o
    rw [outOf_before, atOf, Buffer.visible, List.filter_filter, textAt]
    refine congrArg (List.flatMap Inlay.text) (List.filter_congr fun i _ => ?_)
    rw [Bool.decide_and, Bool.decide_eq_true, Bool.and_comm]
    rfl
  induction text generalizing o with
  | nil =>
    rw [full, after_nil, List.append_nil, hbefore]
    rfl
  | cons c text ih =>
    have hcut := @full_eq_woven _ (atOf b.offsetOf (b.visible inlays)) o [c] text
    rw [List.singleton_append] at hcut
    rw [hcut, woven, woven, outOf_append, outOf_append, hbefore, byteLen_cons, byteLen_nil, Nat.add_zero,
      ih, shown, List.append_assoc]
    rfl

theorem Inv.text (h : Inv m) : m.snapshot.text = some (outOf (m.snapshot.buffer.woven m.inlays)) :=
  h.shows.text (charsOf_bufferWoven _ _)

theorem Inv.right (h : Inv m) : Right m := by
  obtain ⟨hsummary, hapart⟩ := h.shows.checkInvariants (charsOf_bufferWoven _ _)
  refine ⟨hsummary, hapart, ?_, h.ids, ?_⟩
  · obtain ⟨bs, -, hts, htokens⟩ := h.shows
    rw [hts, inlays_transforms, htokens]
    exact inlaysOf_full (((h.sorted.offsets h.lawful)).filter _) (h.lawful.inText _)
  · rw [h.text, Buffer.woven, outOf_full]

theorem exact_of_describes {m' : InlayMap Anchor} (h : Inv m) (h' : Inv m') {out : Patch}
    (hout : Describes out (utf8 (outOf (m.snapshot.buffer.woven m.inlays)))
      (utf8 (outOf (m'.snapshot.buffer.woven m'.inlays)))) : Exact m m' out :=
  ⟨hout.separated.pairwise hout.runs.ordered, _, _, h.text, h'.text, hout.applyTo_eq⟩

theorem exactEdits_withTrailingEdit {old new : Buffer Anchor}
    (h : ExactEdits edits old.text new.text) :
    ExactEdits (withTrailingEdit old new edits) old.text new.text := by
  rw [withTrailingEdit]
  split
  · next hempty =>
    rw [hempty.1] at h
    have htext := h.changes.eq_of_nil
    rw [Buffer.len, Buffer.len, ← htext]
    refine ⟨?_, List.isChain_singleton _⟩
    have := Changes.edit (o := 0) (n := 0) old.text [] [] (.same [])
    simpa using this
  · exact h

theorem Inv.sync (h : Inv m) {buffer : Buffer Anchor} (hinput : SyncInput m buffer edits) :
    ∃ m' out, m.sync buffer edits = some (m', out) ∧ Inv m' ∧ Exact m m' out := by
  have hexact := exactEdits_withTrailingEdit hinput.exact
  have hsorted : Sorted buffer m.inlays := by
    rw [Sorted, hinput.cmp]
    exact h.sorted
  obtain ⟨snapshot, out, hsync, rfl, hshows, hdescribes⟩ := sync_spec hinput.lawful hsorted h.shows hexact
    fun x hx => atOf_eq_of_follows hexact hinput.follows hx
  have h' : Inv ⟨snapshot, m.inlays⟩ := ⟨hinput.lawful, hshows, hsorted, h.ids⟩
  exact ⟨_, out, hsync, h', exact_of_describes h h' hdescribes⟩

/-- **A change of the inlays.** -/
theorem Inv.splice (h : Inv m) (toRemove : List InlayId)
    {toInsert : List (Inlay Anchor)} (hinput : SpliceInput m toInsert) :
    ∃ m' out, m.splice toRemove toInsert = some (m', out) ∧ Inv m' ∧ Exact m m' out := by
  rw [InlayMap.splice]
  generalize hinsert : (toInsert.filter fun i => i.text ≠ []) = inserted
  have hsub : inserted.Sublist toInsert := hinsert ▸ List.filter_sublist
  generalize hremove : (m.inlays.filter fun i => i.id ∉ toRemove) = kept
  have hkept : kept.Sublist m.inlays := hremove ▸ List.filter_sublist
  generalize hoffsets : (((m.inlays.filter fun i => i.id ∈ toRemove) ++ inserted).map
    fun i => m.snapshot.buffer.toOffset i.position).toFinset = offsets
  -- the edits are at the inlays that come and go
  have hmem : ∀ x, x ∈ offsets.sort ↔ ∃ i ∈ (m.inlays.filter fun i => i.id ∈ toRemove) ++ inserted,
      m.snapshot.buffer.toOffset i.position = x := by
    intro x
    rw [Finset.mem_sort, ← hoffsets, List.mem_toFinset, List.mem_map]
  have hlt : offsets.sort.Pairwise (· < ·) := (Finset.sortedLT_sort offsets).pairwise
  have hsame : withTrailingEdit m.snapshot.buffer m.snapshot.buffer (offsets.sort.map pointEdit) =
      offsets.sort.map pointEdit := if_neg (by simp)
  have hexact : ExactEdits (withTrailingEdit m.snapshot.buffer m.snapshot.buffer
      (offsets.sort.map pointEdit)) m.snapshot.buffer.text m.snapshot.buffer.text := by
    rw [hsame]
    refine ⟨changes_points hlt fun x hx => ?_, separated_points hlt⟩
    obtain ⟨i, -, rfl⟩ := (hmem x).mp hx
    obtain ⟨s, t, htext, hlen⟩ := h.lawful.boundary i.position
    exact ⟨s, t, htext, by rw [hlen, Nat.zero_add]⟩
  have hsorted : Sorted m.snapshot.buffer (inserted.foldl (insertInlay m.snapshot.buffer) kept) :=
    Sorted.foldl_insertInlay h.lawful inserted (h.sorted.sublist hkept)
  obtain ⟨snapshot, out, hsync, hbuffer, hshows, hdescribes⟩ := sync_spec h.lawful hsorted h.shows
    hexact (by
      intro x hx
      rw [hsame] at hx ⊢
      have hx := untouched_points.mp hx
      rw [imageFrom_points (Nat.zero_le x) hx, ← hremove]
      exact atOf_splice fun i hi hoff => hx ((hmem x).mpr ⟨i, hi, hoff⟩))
  have hids : ((inserted.foldl (insertInlay m.snapshot.buffer) kept).map Inlay.id).Nodup := by
    refine ((foldl_insertInlay_perm inserted kept).map Inlay.id).nodup_iff.mpr ?_
    rw [List.map_append]
    refine List.nodup_append.mpr ⟨hinput.nodup.sublist (hsub.map _), h.ids.sublist (hkept.map _), ?_⟩
    intro x hx y hy heq
    obtain ⟨i, hi, rfl⟩ := List.mem_map.mp hx
    obtain ⟨j, hj, rfl⟩ := List.mem_map.mp hy
    exact hinput.fresh i (hsub.subset hi) j (hkept.subset hj) heq.symm
  have h' : Inv ⟨snapshot, inserted.foldl (insertInlay m.snapshot.buffer) kept⟩ := by
    refine ⟨?_, ?_, ?_, hids⟩
    · simp only [hbuffer]
      exact h.lawful
    · simp only [hbuffer]
      exact hshows
    · simp only [hbuffer]
      exact hsorted
  refine ⟨_, out, hsync, h', exact_of_describes h h' ?_⟩
  simp only [hbuffer]
  exact hdescribes

theorem Reachable.inv (h : Reachable m) : Inv m := by
  induction h with
  | new hlawful => exact .new hlawful
  | sync _ hinput hsync ih =>
    obtain ⟨_, _, hsync', hinv, -⟩ := ih.sync hinput
    obtain ⟨rfl, -⟩ := Prod.mk.inj (Option.some.inj (hsync.symm.trans hsync'))
    exact hinv
  | splice _ hinput hsplice ih =>
    obtain ⟨_, _, hsplice', hinv, -⟩ := ih.splice _ hinput
    obtain ⟨rfl, -⟩ := Prod.mk.inj (Option.some.inj (hsplice.symm.trans hsplice'))
    exact hinv

/-- A buffer with two anchors behind its first character, which part when something is typed there. -/
def sampleBuffer (text : List Char) (right : Nat) : Buffer Bool where
  text := text
  toOffset a := if a then right else 1
  isValid _ := true
  cmp := compare
  editCount := 0
  nonTextStateUpdateCount := 0
  trailingExcerptUpdateCount := 0

def sampleInlays : List (Inlay Bool) := [⟨.hint 0, false, ['l']⟩, ⟨.hint 1, true, ['r']⟩]

/-- `a`, the inlays and `b`. -/
def sampleMap : InlayMap Bool :=
  ⟨⟨sampleBuffer ['a', 'b'] 1, [.isomorphic (.ofText ['a']), .inlay ⟨.hint 0, false, ['l']⟩,
    .inlay ⟨.hint 1, true, ['r']⟩, .isomorphic (.ofText ['b'])], 1⟩, sampleInlays⟩

theorem lawful_sampleBuffer {text : List Char} {right : Nat} (hleft : Chunked.Boundary text 1)
    (hright : Chunked.Boundary text right) (hle : 1 ≤ right) : (sampleBuffer text right).Lawful := by
  refine ⟨?_, ?_, ?_, ?_⟩
  · intro a
    cases a with
    | false => exact hleft
    | true => exact hright
  · intro a a' h
    cases a <;> cases a'
    · exact Nat.le_refl 1
    · exact hle
    · exact absurd rfl h
    · exact Nat.le_refl right
  · exact (by decide : ∀ a a' : Bool, compare a a' = .gt → compare a' a ≠ .gt)
  · exact (by decide : ∀ a a' a'' : Bool, compare a a' ≠ .gt → compare a' a'' ≠ .gt → compare a a'' ≠ .gt)

theorem splice_sampleMap : ∃ out, (InlayMap.new (sampleBuffer ['a', 'b'] 1)).splice [] sampleInlays =
    some (sampleMap, out) := by
  have hedits : ([1, 1].toFinset : Finset Nat).sort = [1] := by simp
  change ∃ out, InlayMap.sync _ _ ((([1, 1].toFinset : Finset Nat).sort).map _) = _
  rw [hedits]
  exact ⟨_, rfl⟩

theorem reachable_sampleMap : Reachable sampleMap := by
  obtain ⟨out, hsplice⟩ := splice_sampleMap
  have hlawful := lawful_sampleBuffer ⟨['a'], ['b'], rfl, rfl⟩ ⟨['a'], ['b'], rfl, rfl⟩ (Nat.le_refl 1)
  exact .splice (.new hlawful) ⟨by decide, fun _ _ j hj => absurd hj (by simp [InlayMap.new])⟩ hsplice

end SpkEditor.Inlays
