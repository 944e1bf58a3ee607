import SpkEditor.Text.AnchorProof
import SpkEditor.Text.EditsProof

/-!
# Edits in a range

Each end of a range cuts the fragments: into those before the fragment that its anchor resolves to, and the rest,
of the first of which some cells are before the anchor (`Cuts`). The fragments between two cuts are those the walk
goes over, and their parts in the range are the cells between the two cuts (`Cuts.range`). So the edits in a range
turn what the version could see of these cells into what is visible of them now (`editsSinceInRange_spec`).
-/

namespace SpkEditor

open Patch List

/-- **Where the end of a range cuts the fragments.** Of the first of `rest` the first `overshoot` cells are before the
anchor. -/
structure Cuts (fragments : List Fragment) (id : Locator) (offset : Nat) (pre rest : List Fragment) (overshoot : Nat) :
    Prop where
  split : fragments = pre ++ rest
  before : ∀ f ∈ pre, f.id < id
  behind : ∀ f ∈ rest, id ≤ f.id
  overshoot_eq : ∀ f ∈ rest.head?, f.insertionOffset + overshoot = offset
  overshoot_le : ∀ f ∈ rest.head?, overshoot ≤ f.len
  overshoot_zero : (∀ f ∈ rest.head?, f.id ≠ id) → overshoot = 0

namespace EditsQuery

variable {q : EditsQuery} {skip : Nat}

theorem parts_append : ∀ (fs gs : List Fragment), q.parts 0 (fs ++ gs) = q.parts 0 fs ++ q.parts 0 gs
  | [], _ => rfl
  | f :: fs, gs => by rw [cons_append, parts, parts, parts_append fs gs, append_assoc]

theorem parts_eq_cellsOf : ∀ {fs : List Fragment}, (∀ f ∈ fs, f.id < q.stop.1) → q.parts 0 fs = cellsOf fs
  | [], _ => rfl
  | f :: fs, h => by
      rw [parts, part, reach_of_lt (h f (by simp)), drop_zero, take_of_length_le (by simp), cellsOf_cons,
        parts_eq_cellsOf fun g hg => h g (mem_cons_of_mem _ hg)]

theorem parts_skip {fs : List Fragment} (h : ∀ f ∈ fs.head?, skip ≤ q.reach f) :
    q.parts skip fs = (q.parts 0 fs).drop skip := by
  cases fs with
  | nil => simp [parts]
  | cons f fs =>
    have hlen : skip ≤ (f.cells.take (q.reach f)).length := by
      have h1 := h f rfl
      have h2 := q.reach_le f
      simp only [length_take, Fragment.length_cells]
      omega
    rw [parts, parts, part, part, drop_zero, drop_append_of_le_length hlen]

theorem changedIn_iff : ∀ {fs : List Fragment}, q.Covers fs → (∀ f ∈ fs.head?, f.id ≠ q.start.1 → skip = 0) →
    (q.ChangedIn skip fs ↔
      ∃ f ∈ fs, q.Changed f ∧ (if f.id = q.start.1 then skip else 0) < q.reach f) := by
  have hpart : ∀ (skip : Nat) (f : Fragment), q.part skip f ≠ [] ↔ skip < q.reach f := fun skip f => by
    rw [← length_pos_iff_ne_nil, length_part, Nat.sub_pos_iff_lt]
  intro fs
  induction fs generalizing skip with
  | nil => intro _ _; simp [ChangedIn]
  | cons f fs ih =>
    intro hcov hskip
    have hlater : ∀ g ∈ fs, g.id ≠ q.start.1 := fun g hg =>
      ne_of_gt (lt_of_le_of_lt (hcov.start_le f (by simp)) ((List.pairwise_cons.mp hcov.ids).1 g hg))
    have htail : q.ChangedIn 0 fs ↔ ∃ g ∈ fs, q.Changed g ∧ (if g.id = q.start.1 then skip else 0) < q.reach g := by
      rw [ih hcov.tail (fun _ _ _ => rfl)]
      refine exists_congr (fun g => and_congr_right (fun hg => ?_))
      rw [if_neg (hlater g hg), if_neg (hlater g hg)]
    have hhead : (if f.id = q.start.1 then skip else 0) = skip := by
      split
      · rfl
      · rename_i hne
        exact (hskip f rfl hne).symm
    rw [ChangedIn, htail, hpart, exists_mem_cons_iff, hhead]

end EditsQuery

section

variable {fragments preA restA preB restB : List Fragment} {idA idB : Locator} {offA offB overA overB : Nat}

theorem Cuts.split_of_le (ha : Cuts fragments idA offA preA restA overA)
    (hb : Cuts fragments idB offB preB restB overB) (hle : idA ≤ idB) :
    ∃ mid, preB = preA ++ mid ∧ restA = mid ++ restB := by
  rcases List.append_eq_append_iff.mp (hb.split.symm.trans ha.split) with ⟨mid, hpre, hrest⟩ | ⟨mid, hpre, hrest⟩
  · cases mid with
    | nil => exact ⟨[], by simpa using hpre.symm, by simpa using hrest.symm⟩
    | cons g mid =>
      -- a fragment that is before the first and not before the second
      have h1 := ha.before g (by rw [hpre]; simp)
      have h2 := hb.behind g (by rw [hrest]; simp)
      exact absurd (lt_of_lt_of_le h1 hle) (not_lt_of_ge h2)
  · exact ⟨mid, hpre, hrest⟩

theorem Cuts.last {q : EditsQuery} (hids : IdsSorted fragments) (hb : Cuts fragments idB offB preB restB overB)
    (hq : q.stop = (idB, offB)) :
    ∃ last post, restB = last ++ post ∧ (∀ f ∈ last, f.id = idB ∧ f.insertionOffset ≤ offB ∧ q.reach f = overB) ∧
      (∀ f ∈ post, idB < f.id) ∧ q.parts 0 last = (cellsOf restB).take overB := by
  cases restB with
  | nil => exact ⟨[], [], rfl, by simp, by simp, by simp [EditsQuery.parts]⟩
  | cons f post =>
    have hsorted : ∀ g ∈ post, f.id < g.id := by
      have := hids
      rw [hb.split] at this
      exact (List.pairwise_cons.mp (List.pairwise_append.mp this).2.1).1
    by_cases hid : f.id = idB
    · have h1 := hb.overshoot_eq f rfl
      have h2 := hb.overshoot_le f rfl
      have hreach : q.reach f = overB := by
        rw [EditsQuery.reach, hq, if_pos hid]
        omega
      refine ⟨[f], post, rfl, ?_, fun g hg => hid ▸ hsorted g hg, ?_⟩
      · intro g hg
        obtain rfl := List.mem_singleton.mp hg
        exact ⟨hid, by omega, hreach⟩
      · rw [EditsQuery.parts, EditsQuery.parts, EditsQuery.part, hreach, drop_zero, append_nil, cellsOf_cons,
          take_append_of_le_length (by simpa using h2)]
    · have hlt : idB < f.id := lt_of_le_of_ne (hb.behind f (by simp)) (Ne.symm hid)
      have hzero : overB = 0 := hb.overshoot_zero (fun g hg => by
        cases hg
        exact hid)
      refine ⟨[], f :: post, rfl, by simp, ?_, by simp [EditsQuery.parts, hzero]⟩
      exact List.forall_mem_cons.mpr ⟨hlt, fun g hg => lt_trans hlt (hsorted g hg)⟩

theorem Cuts.range {q : EditsQuery} (hids : IdsSorted fragments) (ha : Cuts fragments idA offA preA restA overA)
    (hb : Cuts fragments idB offB preB restB overB) (hle : idA ≤ idB) (hq : q.stop = (idB, offB))
    (hcount : (cellsOf preA).length + overA ≤ (cellsOf preB).length + overB) :
    ∃ fs post, fragments = preA ++ (fs ++ post) ∧ (∀ f ∈ fs, idA ≤ f.id ∧ f.id ≤ idB) ∧ (∀ f ∈ post, idB < f.id) ∧
      (∀ f ∈ fs, f.id = idB → f.insertionOffset ≤ offB) ∧ (∀ f ∈ fs.head?, f ∈ restA.head? ∧ overA ≤ q.reach f) ∧
      q.parts overA fs = ((cellsOf fragments).take ((cellsOf preB).length + overB)).drop
        ((cellsOf preA).length + overA) := by
  obtain ⟨mid, hpre, hrest⟩ := ha.split_of_le hb hle
  obtain ⟨last, post, hlast, hid, hpost, hparts⟩ := hb.last hids hq
  have hmid : ∀ f ∈ mid, f.id < q.stop.1 := fun f hf => by
    rw [hq]
    exact hb.before f (by rw [hpre]; exact mem_append_right _ hf)
  have hhead : ∀ f ∈ (mid ++ last).head?, f ∈ restA.head? ∧ overA ≤ q.reach f := by
    intro f hf
    have hin : f ∈ restA.head? := by
      rw [hrest, hlast, ← append_assoc, head?_append, Option.mem_def.mp hf]
      rfl
    refine ⟨hin, ?_⟩
    have hover := ha.overshoot_le f hin
    cases mid with
    | nil =>
      have hf' : f ∈ last := mem_of_mem_head? hf
      rw [(hid f hf').2.2]
      rw [hpre, append_nil] at hcount
      omega
    | cons g mid =>
      obtain rfl := Option.some.inj hf
      rw [EditsQuery.reach_of_lt (hmid g (by simp))]
      exact hover
  have hcells : (cellsOf fragments).take ((cellsOf preB).length + overB) = cellsOf preA ++ q.parts 0 (mid ++ last) := by
    rw [EditsQuery.parts_append, EditsQuery.parts_eq_cellsOf hmid, hparts, hb.split, cellsOf_append,
      take_length_add_append, hpre, cellsOf_append, append_assoc]
  refine ⟨mid ++ last, post, ?_, fun f hf => ⟨?_, ?_⟩, hpost, fun f hf hfid => ?_, hhead, ?_⟩
  · rw [ha.split, hrest, hlast, append_assoc]
  · exact ha.behind f (by rw [hrest, hlast, ← append_assoc]; exact mem_append_left _ hf)
  · rcases List.mem_append.mp hf with hf | hf
    · exact le_of_lt (by have := hmid f hf; rwa [hq] at this)
    · exact le_of_eq (hid f hf).1
  · rcases List.mem_append.mp hf with hf | hf
    · have := hmid f hf
      rw [hq, hfid] at this
      exact absurd this (lt_irrefl _)
    · exact (hid f hf).2.1
  · rw [hcells, drop_length_add_append, EditsQuery.parts_skip (fun f hf => (hhead f hf).2)]

end

/-! ## The stops of the filter -/

theorem touchedFrom_append (since : Global) : ∀ (fs gs : List Fragment) (start : Nat × Nat),
    touchedFrom since start (fs ++ gs) =
      touchedFrom since start fs ++ touchedFrom since (start.1 + visibleLen fs, start.2 + deletedLen fs) gs
  | [], gs, start => by simp [touchedFrom, visibleLen, deletedLen]
  | f :: fs, gs, start => by
      rw [cons_append, touchedFrom, touchedFrom, touchedFrom_append since fs gs]
      have hv : visibleLen (f :: fs) = f.visibleLen + visibleLen fs := rfl
      have hd : deletedLen (f :: fs) = f.deletedLen + deletedLen fs := rfl
      rw [hv, hd, add_assoc, add_assoc]
      split <;> rfl

theorem mem_of_touchedFrom {since : Global} {stop : FilterStop} : ∀ {fs : List Fragment} {start : Nat × Nat},
    stop ∈ touchedFrom since start fs → stop.fragment ∈ fs ∧ stop.fragment.touchedSince since = true
  | [], _, h => absurd h not_mem_nil
  | f :: fs, start, h => by
      rw [touchedFrom] at h
      split at h
      · rename_i ht
        rcases List.mem_cons.mp h with rfl | h
        · exact ⟨by simp, ht⟩
        · exact (mem_of_touchedFrom h).imp (mem_cons_of_mem _) id
      · exact (mem_of_touchedFrom h).imp (mem_cons_of_mem _) id

namespace BufferSnapshot

variable {cfg : Profile} {byte : Lamport → Nat → UInt8} {s : BufferSnapshot} {since : Global} {a b : Anchor}
  {idA idB : Locator} {preA restA preB restB : List Fragment} {overA overB : Nat}

theorem length_deletedText (hw : Wf byte s) : s.deletedText.length = deletedLen s.fragments := by
  rw [hw.deletedText, length_textOf_deleted]

theorem editsStart_spec (ha : Cuts s.fragments idA a.offset preA restA overA) :
    s.editsStart idA a.offset = some (
      visibleLen preA + (restA.head?.elim 0 fun f => if f.visible then overA else 0),
      deletedLen preA + (restA.head?.elim 0 fun f => if f.visible then 0 else overA)) := by
  have hpre : ∀ f ∈ preA, decide (f.id < idA) = true := fun f hf => decide_eq_true (ha.before f hf)
  have hrest : ∀ f ∈ restA.head?, ¬ decide (f.id < idA) = true := fun f hf => by
    rw [decide_eq_true_eq]
    exact not_lt_of_ge (ha.behind f (mem_of_mem_head? hf))
  have htake : s.fragments.takeWhile (fun f => decide (f.id < idA)) = preA := by
    rw [ha.split, takeWhile_append_of_pos hpre]
    cases restA with
    | nil => simp
    | cons f restA => rw [takeWhile_cons, if_neg (hrest f rfl), append_nil]
  have hdrop : s.fragments.dropWhile (fun f => decide (f.id < idA)) = restA := by
    rw [ha.split, dropWhile_append_of_pos hpre]
    cases restA with
    | nil => rfl
    | cons f restA => rw [dropWhile_cons, if_neg (hrest f rfl)]
  rw [editsStart, htake, hdrop]
  cases restA with
  | nil => rfl
  | cons f restA =>
    have h1 := ha.overshoot_eq f rfl
    simp only [head?_cons, Option.elim_some, Patch.checkedSub]
    rw [if_pos (by omega), Option.map_some, show a.offset - f.insertionOffset = overA by omega]
    split <;> simp

section

variable {q : EditsQuery} {fs post : List Fragment}

section

variable (hw : Wf byte s) (hsplit : s.fragments = preA ++ (fs ++ post))
include hw hsplit

theorem covers_of_split (hundos : q.undos = s.undoMap)
    (hwithin : ∀ f ∈ fs, q.start.1 ≤ f.id ∧ f.id ≤ q.stop.1)
    (hclamp : ∀ f ∈ fs, f.id = q.stop.1 → f.insertionOffset ≤ q.stop.2) : q.Covers fs := by
  refine ⟨?_, fun f hf => (hwithin f hf).1, fun f hf => (hwithin f hf).2, hclamp, fun f hf ht => ?_⟩
  · have := hw.ids
    rw [hsplit] at this
    exact (List.pairwise_append.mp (List.pairwise_append.mp this).2.1).1
  · have hmem : f ∈ s.fragments := by
      rw [hsplit]
      exact mem_append_right _ (mem_append_left _ hf)
    rw [EditsQuery.Changed, hundos]
    exact not_not_intro (hw.wasVisible_of_untouched hmem ht)

/-- **The walk starts** at the anchor, in the first of the fragments. -/
theorem stands_of_split (hhead : ∀ f ∈ fs.head?, f ∈ restA.head?) :
    Edits.Stands
      ⟨⟨s.visibleText, visibleLen preA + (restA.head?.elim 0 fun f => if f.visible then overA else 0)⟩,
        ⟨s.deletedText, deletedLen preA + (restA.head?.elim 0 fun f => if f.visible then 0 else overA)⟩, 0, 0⟩
      (visibleLen preA, deletedLen preA) overA fs [] := by
  have hv : visibleLen s.fragments = visibleLen preA + (visibleLen fs + visibleLen post) := by
    rw [hsplit]
    simp [visibleLen]
  have hd : deletedLen s.fragments = deletedLen preA + (deletedLen fs + deletedLen post) := by
    rw [hsplit]
    simp [deletedLen]
  refine ⟨fun f hf => ?_, fun f hf => ?_, ?_, ?_, fun _ => rfl⟩
  · rw [Option.mem_def.mp (hhead f hf)]
    rfl
  · rw [Option.mem_def.mp (hhead f hf)]
    exact max_eq_left (Nat.le_add_right ..)
  · show _ ≤ s.visibleText.length
    rw [length_visibleText hw, hv]
    omega
  · show _ ≤ s.deletedText.length
    rw [length_deletedText hw, hd]
    omega

end

theorem editsSinceInRange_of_scan (hne : since ≠ s.version) (hida : s.fragmentIdForAnchor cfg a = some idA)
    (hidb : s.fragmentIdForAnchor cfg b = some idB) (ha : Cuts s.fragments idA a.offset preA restA overA)
    (hsplit : s.fragments = preA ++ (fs ++ post)) {edits : Patch}
    (hscan : Edits.scan ⟨since, s.undoMap, (idA, a.offset), (idB, b.offset)⟩
      (touchedFrom since (visibleLen preA, deletedLen preA) fs ++
        touchedFrom since (visibleLen preA + visibleLen fs, deletedLen preA + deletedLen fs) post)
      ⟨⟨s.visibleText, visibleLen preA + (restA.head?.elim 0 fun f => if f.visible then overA else 0)⟩,
        ⟨s.deletedText, deletedLen preA + (restA.head?.elim 0 fun f => if f.visible then 0 else overA)⟩, 0, 0⟩
      none = some edits) :
    s.editsSinceInRange cfg since a b = some edits := by
  have hstops : touchedFrom since (0, 0) s.fragments = touchedFrom since (0, 0) preA ++
      (touchedFrom since (visibleLen preA, deletedLen preA) fs ++
        touchedFrom since (visibleLen preA + visibleLen fs, deletedLen preA + deletedLen fs) post) := by
    rw [hsplit, touchedFrom_append, touchedFrom_append, zero_add, zero_add]
  rw [editsSinceInRange, if_neg hne]
  refine Option.bind_eq_some_iff.mpr ⟨_, hida, Option.bind_eq_some_iff.mpr ⟨_, editsStart_spec ha, ?_⟩⟩
  refine Option.bind_eq_some_iff.mpr ⟨_, hidb, ?_⟩
  rw [Edits.collect_eq (Nat.lt_succ_self _), hstops,
    Edits.scan_before (fun stop hmem => ha.before _ (mem_of_touchedFrom hmem).1)]
  exact hscan

theorem changedIn_of_split (hcov : q.Covers fs) (ha : Cuts s.fragments q.start.1 a.offset preA restA overA)
    (hsplit : s.fragments = preA ++ (fs ++ post)) (hpast : ∀ f ∈ post, q.stop.1 < f.id)
    (hhead : ∀ f ∈ fs.head?, f ∈ restA.head?) :
    q.ChangedIn overA fs ↔ ∃ f ∈ s.fragments, q.start.1 ≤ f.id ∧ f.id ≤ q.stop.1 ∧ q.Changed f ∧
      (if f.id = q.start.1 then overA else 0) < q.reach f := by
  rw [EditsQuery.changedIn_iff hcov ?_]
  · constructor
    · rintro ⟨f, hf, hc, hlt⟩
      have hmem : f ∈ s.fragments := by
        rw [hsplit]
        exact mem_append_right _ (mem_append_left _ hf)
      exact ⟨f, hmem, hcov.start_le f hf, hcov.le_stop f hf, hc, hlt⟩
    · rintro ⟨f, hf, h1, h2, hc, hlt⟩
      refine ⟨f, ?_, hc, hlt⟩
      rw [hsplit] at hf
      rcases List.mem_append.mp hf with hf | hf
      · exact absurd (ha.before f hf) (not_lt_of_ge h1)
      · exact (List.mem_append.mp hf).resolve_right (fun hf => absurd (hpast f hf) (not_lt_of_ge h2))
  · intro f hf hid
    refine ha.overshoot_zero (fun g hg => ?_)
    rw [Option.mem_def.mp (hhead f hf)] at hg
    cases hg
    exact hid

end

/-- **The edits in a range** turn what the version could see there into what is visible there. -/
theorem editsSinceInRange_spec (hw : Wf byte s) (hne : since ≠ s.version)
    (hida : s.fragmentIdForAnchor cfg a = some idA) (hidb : s.fragmentIdForAnchor cfg b = some idB)
    (ha : Cuts s.fragments idA a.offset preA restA overA) (hb : Cuts s.fragments idB b.offset preB restB overB)
    (hle : idA ≤ idB) (hcount : (cellsOf preA).length + overA ≤ (cellsOf preB).length + overB)
    {q : EditsQuery} (hq : q = ⟨since, s.undoMap, (idA, a.offset), (idB, b.offset)⟩) {cells : List Cell}
    (hcells : cells = ((cellsOf s.fragments).take ((cellsOf preB).length + overB)).drop
      ((cellsOf preA).length + overA)) :
    ∃ edits, s.editsSinceInRange cfg since a b = some edits ∧
      Yields (overA = 0 ∧ ∀ f ∈ s.fragments, f.id ≠ idB) 0 0 [] [] [] (oldTextOf byte since s.undoMap cells)
        (textOf byte true cells)
        (∃ f ∈ s.fragments, idA ≤ f.id ∧ f.id ≤ idB ∧ q.Changed f ∧ (if f.id = idA then overA else 0) < q.reach f)
        edits := by
  obtain ⟨fs, post, hsplit, hfs, hpost, hclamp, hhead, hparts⟩ := ha.range hw.ids hb hle
    (show q.stop = (idB, b.offset) by rw [hq]) hcount
  subst hq
  have hhead' : ∀ f ∈ fs.head?, f ∈ restA.head? := fun f hf => (hhead f hf).1
  have hcov := @covers_of_split byte s preA ⟨since, s.undoMap, (idA, a.offset), (idB, b.offset)⟩ fs post hw hsplit rfl
    hfs hclamp
  have hfull : (overA = 0 ∧ ∀ f ∈ s.fragments, f.id ≠ idB) → ∀ f ∈ fs,
      0 < EditsQuery.reach ⟨since, s.undoMap, (idA, a.offset), (idB, b.offset)⟩ f := by
    rintro ⟨-, hid⟩ f hf
    have hmem : f ∈ s.fragments := by
      rw [hsplit]
      exact mem_append_right _ (mem_append_left _ hf)
    rw [EditsQuery.reach_of_lt (lt_of_le_of_ne (hfs f hf).2 (hid f hmem))]
    exact hw.len_pos f hmem
  obtain ⟨edits, hscan, hyields⟩ := Edits.scan_spec hle
    (fun stop hmem => hpost _ (@mem_of_touchedFrom since _ _ _ hmem).1) hcov hfull _ _ overA 0 0
    [] [] [] none (stands_of_split hw hsplit hhead') (fun f hf => (hhead f hf).2) And.left ⟨rfl, rfl⟩ ⟨rfl, rfl⟩
  refine ⟨edits, editsSinceInRange_of_scan hne hida hidb ha hsplit hscan, ?_⟩
  rw [hparts, ← hcells] at hyields
  exact ⟨hyields.runs, hyields.separated,
    hyields.changes.trans (by rw [changedIn_of_split hcov ha hsplit hpost hhead']), hyields.nonempty⟩

/-! ## The fast check -/

theorem changedSince_iff {f : Fragment} :
    s.changedSince since f = true ↔ f.wasVisible since s.undoMap ≠ f.visible := bne_iff_ne

theorem mem_touchedFrom_of_changed (hw : Wf byte s) {f : Fragment} (hc : s.changedSince since f = true) :
    ∀ {fs : List Fragment} {start : Nat × Nat}, (∀ g ∈ fs, g ∈ s.fragments) → f ∈ fs →
      ∃ stop ∈ touchedFrom since start fs, stop.fragment = f
  | [], _, _, hf => absurd hf not_mem_nil
  | g :: fs, start, hfs, hf => by
      have hrest := fun k hk => hfs k (mem_cons_of_mem _ hk)
      rw [touchedFrom]
      rcases List.mem_cons.mp hf with rfl | hf
      · have ht : f.touchedSince since = true := by
          by_contra hne
          exact changedSince_iff.mp hc (hw.wasVisible_of_untouched (hfs f (by simp)) (Bool.eq_false_iff.mpr hne))
        rw [if_pos ht]
        exact ⟨_, mem_cons_self .., rfl⟩
      · obtain ⟨stop, hstop, heq⟩ := mem_touchedFrom_of_changed hw hc hrest hf
        refine ⟨stop, ?_, heq⟩
        split
        · exact mem_cons_of_mem _ hstop
        · exact hstop

theorem hasEditsFrom_spec : ∀ {stops : List FilterStop}, (stops.map FilterStop.fragment).Pairwise (fun f g => f.id < g.id) →
    (s.hasEditsFrom since idA idB stops = true ↔
      ∃ stop ∈ stops, idA < stop.fragment.id ∧ stop.fragment.id ≤ idB ∧ s.changedSince since stop.fragment = true)
  | [], _ => by simp [hasEditsFrom]
  | stop :: stops, h => by
      obtain ⟨hlt, hrest⟩ := List.pairwise_cons.mp h
      rw [hasEditsFrom, exists_mem_cons_iff]
      by_cases hpast : idB < stop.fragment.id
      · rw [if_pos hpast]
        refine iff_of_false Bool.false_ne_true (fun hex => ?_)
        rcases hex with ⟨-, hle, -⟩ | ⟨k, hk, -, hle, -⟩
        · exact absurd hpast (not_lt_of_ge hle)
        · exact absurd (lt_trans hpast (hlt _ (mem_map_of_mem hk))) (not_lt_of_ge hle)
      rw [if_neg hpast]
      split
      · rename_i hc
        exact iff_of_true rfl (.inl ⟨hc.1, not_lt.mp hpast, hc.2⟩)
      · rename_i hc
        rw [hasEditsFrom_spec hrest]
        exact (or_iff_right (fun hx => hc ⟨hx.1, hx.2.2⟩)).symm

theorem touchedFrom_sublist (since : Global) : ∀ (fs : List Fragment) (start : Nat × Nat),
    ((touchedFrom since start fs).map FilterStop.fragment).Sublist fs
  | [], _ => Sublist.slnil
  | f :: fs, start => by
      rw [touchedFrom]
      split
      · exact (touchedFrom_sublist since fs _).cons_cons f
      · exact (touchedFrom_sublist since fs _).cons f

/-- **The fast check** asks for a changed fragment behind that of the start. -/
theorem hasEditsSinceInRange_spec (hw : Wf byte s) (hne : since ≠ s.version)
    (hida : s.fragmentIdForAnchor cfg a = some idA) (hidb : s.fragmentIdForAnchor cfg b = some idB) :
    ∃ has, s.hasEditsSinceInRange cfg since a b = some has ∧
      (has = true ↔ ∃ f ∈ s.fragments, idA < f.id ∧ f.id ≤ idB ∧ s.changedSince since f = true) := by
  refine ⟨s.hasEditsFrom since idA idB (touchedFrom since (0, 0) s.fragments), ?_, ?_⟩
  · rw [hasEditsSinceInRange, if_neg hne]
    exact Option.bind_eq_some_iff.mpr ⟨_, hida, Option.bind_eq_some_iff.mpr ⟨_, hidb, rfl⟩⟩
  · rw [hasEditsFrom_spec (hw.ids.sublist (touchedFrom_sublist since s.fragments (0, 0)))]
    constructor
    · rintro ⟨stop, hmem, h1, h2, hc⟩
      exact ⟨_, (mem_of_touchedFrom hmem).1, h1, h2, hc⟩
    · rintro ⟨f, hf, h1, h2, hc⟩
      obtain ⟨stop, hmem, rfl⟩ := @mem_touchedFrom_of_changed byte s since hw f hc s.fragments (0, 0) (fun _ hg => hg) hf
      exact ⟨stop, hmem, h1, h2, hc⟩

end BufferSnapshot

end SpkEditor
