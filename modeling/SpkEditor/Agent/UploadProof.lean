import SpkEditor.Agent.Upload
import SpkEditor.Lib.Run
import Mathlib.Data.List.Nodup

/-!
# Uploads are what was sent

`StoreInv` ties the store to the calls so far: ids count up from the first one, and the
file of a live upload holds the payloads that were accepted for it, in order. Every call
keeps it (`StoreInv.step`), whichever channel it comes over and whatever came before.
-/

namespace SpkEditor

open List

section

variable {M X : Type} {crates : Crates} {s s' : Store} {first : Nat}
  {events : List (Call M X × Answer M X)} {e : Call M X × Answer M X}

structure Live (s : Store) (events : List (Call M X × Answer M X)) (u : UploadState) : Prop where
  started : u.id ∈ startedIds events
  path : u.tmpPath = ⟨s.manager.tmpRoot, u.id⟩
  bounded : u.receivedBytes ≤ u.expectedSize
  content : s.files u.tmpPath = some (accepted u.id events).flatten
  length : (accepted u.id events).flatten.length = u.receivedBytes

/-- **The invariant of the store.** -/
structure StoreInv (first : Nat) (events : List (Call M X × Answer M X)) (s : Store) : Prop where
  started : startedIds events =
    (List.range (startedIds events).length).map fun k => (first + k) % 2 ^ 64
  nextId : s.manager.nextId = (first + (startedIds events).length) % 2 ^ 64
  ids : (s.manager.state.map UploadState.id).Nodup
  live : ∀ u ∈ s.manager.state, Live s events u
  capped : ∀ session,
    (s.manager.state.filter fun u => u.sessionId == session).length ≤ MAX_CONCURRENT_PER_SESSION
  accepted : ∀ id, accepted id events ≠ [] → id ∈ startedIds events

theorem startedIds_append (es es' : List (Call M X × Answer M X)) :
    startedIds (es ++ es') = startedIds es ++ startedIds es' := filterMap_append

theorem accepted_append (id : UploadId) (es es' : List (Call M X × Answer M X)) :
    accepted id (es ++ es') = accepted id es ++ accepted id es' := filterMap_append

/-- **Fewer ids than there are numbers are all different.** -/
theorem StoreInv.nodup (h : StoreInv first events s) (hlt : (startedIds events).length ≤ 2 ^ 64) :
    (startedIds events).Nodup := by
  rw [h.started]
  refine Nodup.map_on (fun a ha b hb heq => ?_) nodup_range
  rw [mem_range] at ha hb
  have hmod : (first + a) % 2 ^ 64 = (first + b) % 2 ^ 64 := heq
  omega

/-- An event that gives out no id and accepts no payload. -/
def Quiet (e : Call M X × Answer M X) : Prop := startedIds [e] = [] ∧ ∀ id, accepted id [e] = []

theorem Quiet.startedIds (h : Quiet e) : startedIds (events ++ [e]) = startedIds events := by
  rw [startedIds_append, h.1, append_nil]

theorem Quiet.accepted (h : Quiet e) (id : UploadId) :
    accepted id (events ++ [e]) = accepted id events := by
  rw [accepted_append, h.2 id, append_nil]

theorem StoreInv.quiet (h : StoreInv first events s) (hq : Quiet e) : StoreInv first (events ++ [e]) s := by
  refine ⟨?_, ?_, h.ids, fun u hu => ?_, h.capped, fun id hid => ?_⟩
  · rw [hq.startedIds]; exact h.started
  · rw [hq.startedIds]; exact h.nextId
  · have hl := h.live u hu
    refine ⟨?_, hl.path, hl.bounded, ?_, ?_⟩
    · rw [hq.startedIds]; exact hl.started
    · rw [hq.accepted]; exact hl.content
    · rw [hq.accepted]; exact hl.length
  · rw [hq.accepted] at hid
    rw [hq.startedIds]
    exact h.accepted id hid

/-! ## Entries that go -/

/-- Some uploads are gone; the others are untouched. -/
structure Shrinks (s s' : Store) : Prop where
  state : s'.manager.state.Sublist s.manager.state
  nextId : s'.manager.nextId = s.manager.nextId
  tmpRoot : s'.manager.tmpRoot = s.manager.tmpRoot
  files : ∀ u ∈ s'.manager.state, s'.files u.tmpPath = s.files u.tmpPath

theorem Shrinks.refl (s : Store) : Shrinks s s := ⟨Sublist.refl _, rfl, rfl, fun _ _ => rfl⟩

theorem Shrinks.trans {s₁ s₂ s₃ : Store} (h : Shrinks s₁ s₂) (h' : Shrinks s₂ s₃) : Shrinks s₁ s₃ :=
  ⟨h'.state.trans h.state, h'.nextId.trans h.nextId, h'.tmpRoot.trans h.tmpRoot, fun u hu =>
    (h'.files u hu).trans (h.files u (h'.state.subset hu))⟩

theorem StoreInv.shrink (h : StoreInv first events s) (hs : Shrinks s s') : StoreInv first events s' := by
  refine ⟨h.started, hs.nextId.trans h.nextId, h.ids.sublist (hs.state.map _), fun u hu => ?_,
    fun session => ?_, h.accepted⟩
  · have hl := h.live u (hs.state.subset hu)
    refine ⟨hl.started, ?_, hl.bounded, (hs.files u hu).trans hl.content, hl.length⟩
    rw [hs.tmpRoot]
    exact hl.path
  · exact le_trans (hs.state.filter _).length_le (h.capped session)

/-- Every upload has the file of its id. -/
def Filed (s : Store) : Prop := ∀ u ∈ s.manager.state, u.tmpPath = ⟨s.manager.tmpRoot, u.id⟩

theorem StoreInv.filed (h : StoreInv first events s) : Filed s := fun u hu => (h.live u hu).path

theorem Filed.shrink (h : Filed s) (hs : Shrinks s s') : Filed s' := fun u hu => by
  rw [hs.tmpRoot]
  exact h u (hs.state.subset hu)

theorem drop_shrinks (h : Filed s) {entry : UploadState}
    (hentry : entry.tmpPath = ⟨s.manager.tmpRoot, entry.id⟩) : Shrinks s (s.drop entry) := by
  refine ⟨filter_sublist, rfl, rfl, fun u hu => ?_⟩
  obtain ⟨hmem, hne⟩ := List.mem_filter.mp hu
  have hpath : u.tmpPath ≠ entry.tmpPath := by
    rw [h u hmem, hentry]
    intro heq
    simp [(TmpPath.mk.inj heq).2] at hne
  show (if u.tmpPath = entry.tmpPath then none else s.files u.tmpPath) = s.files u.tmpPath
  rw [if_neg hpath]

theorem get_mem {m : UploadManager} {id : UploadId} {u : UploadState} (h : m.get id = some u) :
    u ∈ m.state ∧ u.id = id :=
  ⟨mem_of_find?_eq_some h, by simpa using find?_some h⟩

theorem get_none {m : UploadManager} {id : UploadId} (h : m.get id = none) :
    ∀ u ∈ m.state, u.id ≠ id := by
  intro u hu heq
  have := List.find?_eq_none.mp h u hu
  simp [heq] at this

theorem foldl_drop_shrinks : ∀ (l : List UploadState) {s : Store}, Filed s →
    (∀ u ∈ l, u.tmpPath = ⟨s.manager.tmpRoot, u.id⟩) → Shrinks s (l.foldl Store.drop s)
  | [], s, _, _ => Shrinks.refl s
  | u :: l, s, h, hl => by
      have hs := drop_shrinks h (hl u (mem_cons_self ..))
      exact hs.trans (foldl_drop_shrinks l (h.shrink hs) (fun v hv => hl v (mem_cons_of_mem _ hv)))

theorem abort_spec (h : Filed s) (id : UploadId) : Shrinks s (s.abort id).1 ∧
      (s.abort id).1.manager.state = s.manager.state.filter fun u => u.id != id := by
  unfold Store.abort
  cases hget : s.manager.get id with
  | none =>
    refine ⟨Shrinks.refl s, (List.filter_eq_self.mpr (fun u hu => ?_)).symm⟩
    simpa using get_none hget u hu
  | some entry =>
    obtain ⟨hmem, rfl⟩ := get_mem hget
    exact ⟨drop_shrinks h (h entry hmem), rfl⟩

theorem foldl_abort_spec : ∀ (ids : List UploadId) {s : Store}, Filed s →
    Shrinks s (ids.foldl (fun s id => (s.abort id).1) s) ∧
      (ids.foldl (fun s id => (s.abort id).1) s).manager.state =
        s.manager.state.filter fun u => decide (u.id ∉ ids)
  | [], s, _ => ⟨Shrinks.refl s, by simp⟩
  | id :: ids, s, h => by
      obtain ⟨hs, hstate⟩ := abort_spec h id
      obtain ⟨hs', hstate'⟩ := foldl_abort_spec ids (h.shrink hs)
      refine ⟨hs.trans hs', ?_⟩
      rw [foldl_cons, hstate', hstate, filter_filter]
      refine filter_congr (fun u _ => ?_)
      by_cases h1 : u.id = id <;> by_cases h2 : u.id ∈ ids <;> simp [h1, h2]

/-- What `init` does: nothing, or one upload more with an id of its own. -/
theorem init_cases (s : Store) (sessionId mime displayName : List Char) (totalSize : Nat)
    (sha256 : Option (List Char)) (now : Nat) :
    (∃ err, s.init sessionId mime displayName totalSize sha256 now = (s, .error err)) ∨
      ((s.manager.state.filter fun u => u.sessionId == sessionId).length < MAX_CONCURRENT_PER_SESSION ∧
        ∃ s' entry, s.init sessionId mime displayName totalSize sha256 now = (s', .ok s.manager.nextId) ∧
          entry.id = s.manager.nextId ∧ entry.sessionId = sessionId ∧ entry.receivedBytes = 0 ∧
          entry.tmpPath = ⟨s.manager.tmpRoot, entry.id⟩ ∧
          s'.manager.state = s.manager.state.filter (fun v => v.id != entry.id) ++ [entry] ∧
          s'.manager.nextId = (s.manager.nextId + 1) % 2 ^ 64 ∧
          s'.manager.tmpRoot = s.manager.tmpRoot ∧
          s'.files = fun p => if p = entry.tmpPath then some [] else s.files p) := by
  unfold Store.init
  split
  · exact .inl ⟨_, rfl⟩
  · dsimp only
    split
    · exact .inl ⟨_, rfl⟩
    · rename_i hcap
      exact .inr ⟨by omega, _, _, rfl, rfl, rfl, rfl, rfl, rfl, rfl, rfl, rfl⟩

theorem StoreInv.init (h : StoreInv first events s) {entry : UploadState} {sessionId : List Char}
    {c : Call M X} (hlt : (startedIds events).length < 2 ^ 64)
    (hcap : (s.manager.state.filter fun u => u.sessionId == sessionId).length < MAX_CONCURRENT_PER_SESSION)
    (hid : entry.id = s.manager.nextId) (hsession : entry.sessionId = sessionId)
    (hreceived : entry.receivedBytes = 0) (hpath : entry.tmpPath = ⟨s.manager.tmpRoot, entry.id⟩)
    (hstate : s'.manager.state = s.manager.state.filter (fun v => v.id != entry.id) ++ [entry])
    (hnext : s'.manager.nextId = (s.manager.nextId + 1) % 2 ^ 64)
    (hroot : s'.manager.tmpRoot = s.manager.tmpRoot)
    (hfiles : s'.files = fun p => if p = entry.tmpPath then some [] else s.files p) :
    StoreInv first (events ++ [(c, .started entry.id)]) s' := by
  have hids : startedIds (events ++ [(c, .started entry.id)]) = startedIds events ++ [entry.id] :=
    startedIds_append _ _
  have hacc : ∀ id, SpkEditor.accepted id (events ++ [(c, .started entry.id)]) =
      SpkEditor.accepted id events := by
    intro id
    rw [accepted_append]
    have hnone : SpkEditor.accepted id [((c, .started entry.id) : Call M X × Answer M X)] = [] := by
      cases c <;> rfl
    rw [hnone, append_nil]
  -- the id is a new one
  have hfresh : entry.id ∉ startedIds events := by
    rw [hid, h.nextId, h.started]
    intro hmem
    obtain ⟨k, hk, heq⟩ := List.mem_map.mp hmem
    rw [mem_range] at hk
    simp only [length_map, length_range] at heq
    have hmod : (first + k) % 2 ^ 64 = (first + (startedIds events).length) % 2 ^ 64 := heq
    omega
  have hothers : s.manager.state.filter (fun v => v.id != entry.id) = s.manager.state := by
    refine List.filter_eq_self.mpr (fun v hv => ?_)
    have hne : v.id ≠ entry.id := fun heq => hfresh (heq ▸ (h.live v hv).started)
    simpa using hne
  rw [hothers] at hstate
  refine ⟨?_, ?_, ?_, fun u hu => ?_, fun session => ?_, fun id hne => ?_⟩
  · rw [hids, length_append, length_singleton, range_succ, map_append]
    conv_lhs => rw [h.started]
    rw [hid, h.nextId]
    rfl
  · have hsucc : ((first + (startedIds events).length) % 2 ^ 64 + 1) % 2 ^ 64 =
        (first + ((startedIds events).length + 1)) % 2 ^ 64 := by omega
    rw [hids, hnext, h.nextId, length_append, length_singleton]
    exact hsucc
  · rw [hstate, map_append, map_singleton]
    refine Nodup.append h.ids (nodup_singleton _) ?_
    intro x hx hx'
    obtain ⟨v, hv, rfl⟩ := List.mem_map.mp hx
    exact hfresh (List.mem_singleton.mp hx' ▸ (h.live v hv).started)
  · rw [hstate] at hu
    rcases List.mem_append.mp hu with hu | hu
    · have hl := h.live u hu
      have hne : u.tmpPath ≠ entry.tmpPath := by
        rw [hl.path, hpath]
        intro heq
        exact hfresh ((TmpPath.mk.inj heq).2 ▸ hl.started)
      refine ⟨?_, ?_, hl.bounded, ?_, ?_⟩
      · rw [hids]; exact mem_append_left _ hl.started
      · rw [hroot]; exact hl.path
      · rw [hacc, hfiles]
        dsimp only
        rw [if_neg hne]
        exact hl.content
      · rw [hacc]; exact hl.length
    · obtain rfl := List.mem_singleton.mp hu
      have hempty : SpkEditor.accepted u.id events = [] := by
        by_contra hne
        exact hfresh (h.accepted _ hne)
      refine ⟨?_, ?_, ?_, ?_, ?_⟩
      · rw [hids]; simp
      · rw [hroot]; exact hpath
      · rw [hreceived]; exact Nat.zero_le _
      · rw [hacc, hempty, hfiles]
        dsimp only
        rw [if_pos rfl]
        rfl
      · rw [hacc, hempty, hreceived]; rfl
  · rw [hstate, filter_append, length_append]
    by_cases hs : session = sessionId
    · subst hs
      have : ([entry].filter fun u => u.sessionId == session).length ≤ 1 := length_filter_le _ _
      omega
    · have : [entry].filter (fun u => u.sessionId == session) = [] := by
        simp [hsession, Ne.symm hs]
      rw [this]
      exact h.capped session
  · rw [hacc] at hne
    rw [hids]
    exact mem_append_left _ (h.accepted id hne)

theorem writeAt_end {content data content' : List UInt8} (h : writeAt content content.length data = some content') :
    content' = content ++ data ∧ content.length + data.length ≤ I64_MAX := by
  unfold writeAt at h
  split at h
  · rename_i hle
    refine ⟨?_, hle⟩
    rw [← Option.some.inj h, take_length, Nat.sub_self, List.drop_eq_nil_iff.mpr (by omega)]
    simp
  · cases h

/-- What `write_chunk` does: nothing, or the payload is added to the file. -/
theorem writeChunk_cases (h : StoreInv first events s) (id : UploadId) (offset : Nat) (data : List UInt8) :
    (∃ err, s.writeChunk id offset data = (s, .error err)) ∨
      ∃ entry ∈ s.manager.state, entry.id = id ∧
        entry.receivedBytes + data.length ≤ entry.expectedSize ∧
        s.writeChunk id offset data =
          ({ (s.setFile entry.tmpPath (some ((SpkEditor.accepted id events).flatten ++ data))) with
              manager := s.manager.received id (entry.receivedBytes + data.length) },
            .ok (entry.receivedBytes + data.length)) := by
  unfold Store.writeChunk
  cases hget : s.manager.get id with
  | none => exact .inl ⟨_, rfl⟩
  | some entry =>
    obtain ⟨hmem, rfl⟩ := get_mem hget
    have hl := h.live entry hmem
    dsimp only
    split
    · exact .inl ⟨_, rfl⟩
    · rename_i hoff
      obtain rfl : offset = entry.receivedBytes := not_not.mp hoff
      split
      · exact .inl ⟨_, rfl⟩
      · rename_i hover
        rw [hl.content, Option.bind_some]
        cases hw : writeAt (SpkEditor.accepted entry.id events).flatten entry.receivedBytes data with
        | none => exact .inl ⟨_, rfl⟩
        | some content =>
          rw [← hl.length] at hw
          obtain ⟨rfl, hle⟩ := writeAt_end hw
          rw [hl.length] at hle
          -- a file is never long enough for the total to saturate
          have hmin : min (entry.receivedBytes + data.length) U64_MAX =
              entry.receivedBytes + data.length := by
            have : I64_MAX ≤ U64_MAX := by decide
            omega
          refine .inr ⟨entry, hmem, rfl, by omega, ?_⟩
          rw [hmin]
          rfl

theorem StoreInv.frame (h : StoreInv first events s) {bytes : List UInt8} {entry : UploadState}
    (hmem : entry ∈ s.manager.state) (hid : entry.id = fromBeBytes (bytes.take 8))
    (hle : entry.receivedBytes + (bytes.drop 16).length ≤ entry.expectedSize) :
    StoreInv first (events ++ [(.frame bytes, .written)]) { (s.setFile entry.tmpPath
          (some ((SpkEditor.accepted entry.id events).flatten ++ bytes.drop 16))) with
        manager := s.manager.received entry.id (entry.receivedBytes + (bytes.drop 16).length) } := by
  have hids : startedIds (events ++ [(.frame bytes, .written)]) = startedIds events := by
    rw [startedIds_append]
    exact append_nil _
  have hacc : ∀ id, SpkEditor.accepted id (events ++ [(.frame bytes, .written)]) =
      SpkEditor.accepted id events ++ if entry.id = id then [bytes.drop 16] else [] := by
    intro id
    rw [accepted_append, hid]
    congr 1
    unfold SpkEditor.accepted
    by_cases hi : fromBeBytes (bytes.take 8) = id <;> simp [hi]
  obtain ⟨total, htotal⟩ : ∃ n, n = entry.receivedBytes + (bytes.drop 16).length := ⟨_, rfl⟩
  have hstate : (s.manager.received entry.id total).state = s.manager.state.map fun u : UploadState =>
      if u.id = entry.id then { u with receivedBytes := total } else u := rfl
  have hsame : ∀ u ∈ s.manager.state, u.id = entry.id → u = entry := fun u hu heq =>
    inj_on_of_nodup_map h.ids hu hmem heq
  rw [← htotal] at hle ⊢
  refine ⟨?_, ?_, ?_, fun u hu => ?_, fun session => ?_, fun id hne => ?_⟩
  · rw [hids]; exact h.started
  · rw [hids]; exact h.nextId
  · rw [hstate, map_map]
    have hmap : (UploadState.id ∘ fun u : UploadState =>
        if u.id = entry.id then { u with receivedBytes := total } else u) = UploadState.id := by
      funext u
      dsimp only [Function.comp_apply]
      split <;> rfl
    rw [hmap]
    exact h.ids
  · rw [hstate] at hu
    obtain ⟨v, hv, rfl⟩ := List.mem_map.mp hu
    have hl := h.live v hv
    by_cases heq : v.id = entry.id
    · obtain rfl := hsame v hv heq
      rw [if_pos rfl]
      have hflat : (SpkEditor.accepted v.id (events ++ [(.frame bytes, .written)])).flatten =
          (SpkEditor.accepted v.id events).flatten ++ bytes.drop 16 := by
        rw [hacc, if_pos rfl, flatten_append]
        simp
      refine ⟨?_, hl.path, hle, ?_, ?_⟩
      · rw [hids]; exact hl.started
      · show (if v.tmpPath = v.tmpPath then _ else _) = _
        rw [if_pos rfl]
        exact congrArg some hflat.symm
      · rw [show ({ v with receivedBytes := total } : UploadState).id = v.id from rfl, hflat,
          length_append, hl.length]
        exact htotal.symm
    · rw [if_neg heq]
      have hpath : v.tmpPath ≠ entry.tmpPath := by
        rw [hl.path, (h.live entry hmem).path]
        intro hp
        exact heq (TmpPath.mk.inj hp).2
      have hkeep : SpkEditor.accepted v.id (events ++ [(.frame bytes, .written)]) =
          SpkEditor.accepted v.id events := by
        rw [hacc, if_neg (Ne.symm heq), append_nil]
      refine ⟨?_, hl.path, hl.bounded, ?_, ?_⟩
      · rw [hids]; exact hl.started
      · show (if v.tmpPath = entry.tmpPath then _ else s.files v.tmpPath) = _
        rw [if_neg hpath, hkeep]
        exact hl.content
      · rw [hkeep]; exact hl.length
  · rw [hstate, filter_map, length_map]
    have hp : ((fun u : UploadState => u.sessionId == session) ∘ fun u : UploadState =>
        if u.id = entry.id then { u with receivedBytes := total } else u) =
        fun u => u.sessionId == session := by
      funext u
      dsimp only [Function.comp_apply]
      split <;> rfl
    rw [hp]
    exact h.capped session
  · rw [hids]
    by_cases heq : entry.id = id
    · rw [← heq]
      exact (h.live entry hmem).started
    · rw [hacc, if_neg heq, append_nil] at hne
      exact h.accepted id hne

/-! ## Resolving -/

/-- The block that is sent for a block: itself, or the upload it refers to. -/
def Inlines (crates : Crates) (s : Store) (events : List (Call M X × Answer M X)) :
    ContentBlock M X → ContentBlock M X → Prop
  | .resourceLink uri details fields, out =>
    if HANDLE_SCHEME.isPrefixOf uri then
      ∃ u ∈ s.manager.state, parseU64 (uri.drop HANDLE_SCHEME.length) = .ok u.id ∧
        inlined crates u (SpkEditor.accepted u.id events).flatten details = .ok out ∧
        (SpkEditor.accepted u.id events).flatten.length = u.expectedSize
    else out = .resourceLink uri details fields
  | block, out => out = block

/-- The upload that a block refers to. -/
def handleId : ContentBlock M X → Option UploadId
  | .resourceLink uri _ _ =>
    if HANDLE_SCHEME.isPrefixOf uri then (parseU64 (uri.drop HANDLE_SCHEME.length)).toOption else none
  | _ => none

theorem map_ok {ε α β : Type} {x : Except ε α} {f : α → β} {y : β} (h : x.map f = .ok y) :
    ∃ a, x = .ok a ∧ f a = y := by
  cases x with
  | error err => exact absurd h (by simp [Except.map])
  | ok a => exact ⟨a, rfl, Except.ok.inj h⟩

theorem resolveHandle_spec (h : StoreInv first events s) {uri : List Char} {details : M}
    {block : ContentBlock M X} {id : UploadId} (hr : s.resolveHandle crates uri details = .ok (block, id)) :
    parseU64 (uri.drop HANDLE_SCHEME.length) = .ok id ∧ ∃ u ∈ s.manager.state, u.id = id ∧
        inlined crates u (SpkEditor.accepted u.id events).flatten details = .ok block ∧
        (SpkEditor.accepted u.id events).flatten.length = u.expectedSize := by
  unfold Store.resolveHandle at hr
  cases hp : parseU64 (uri.drop HANDLE_SCHEME.length) with
  | error err =>
    rw [hp] at hr
    cases hr
  | ok id' =>
    rw [hp] at hr
    dsimp only at hr
    cases hget : s.manager.get id' with
    | none =>
      rw [hget] at hr
      cases hr
    | some entry =>
      obtain ⟨hmem, rfl⟩ := get_mem hget
      have hl := h.live entry hmem
      rw [hget] at hr
      dsimp only at hr
      split at hr
      · cases hr
      · rename_i hdone
        rw [hl.content] at hr
        obtain ⟨b, hb, heq⟩ := map_ok hr
        cases heq
        exact ⟨rfl, entry, hmem, rfl, hb, hl.length.trans (not_not.mp hdone)⟩

theorem resolveBlocks_spec (h : StoreInv first events s) :
    ∀ {blocks out : List (ContentBlock M X)} {consumed : List UploadId},
      s.resolveBlocks crates blocks = .ok (out, consumed) →
      List.Forall₂ (Inlines crates s events) blocks out ∧ consumed = blocks.filterMap handleId := by
  intro blocks
  induction blocks with
  | nil =>
    intro out consumed hr
    obtain ⟨rfl, rfl⟩ := Prod.mk.inj (Except.ok.inj hr)
    exact ⟨.nil, rfl⟩
  | cons block blocks ih =>
    intro out consumed hr
    -- a block that stays as it is
    have hplain : handleId block = none → Inlines crates s events block block →
        (s.resolveBlocks crates blocks).map (fun r => (block :: r.1, r.2)) = .ok (out, consumed) →
        List.Forall₂ (Inlines crates s events) (block :: blocks) out ∧
          consumed = (block :: blocks).filterMap handleId := by
      intro hnone hself hr
      obtain ⟨r, hr, heq⟩ := map_ok hr
      obtain ⟨hout, hcons⟩ := Prod.mk.inj heq
      obtain ⟨hall, hids⟩ := ih hr
      rw [← hout, ← hcons, filterMap_cons_none hnone]
      exact ⟨.cons hself hall, hids⟩
    cases block with
    | text text details => exact hplain rfl rfl hr
    | image data mime details => exact hplain rfl rfl hr
    | other fields => exact hplain rfl rfl hr
    | resourceLink uri details fields =>
      rw [Store.resolveBlocks] at hr
      by_cases hscheme : HANDLE_SCHEME.isPrefixOf uri = true
      · rw [if_pos hscheme] at hr
        cases hh : (s.resolveHandle crates uri details : Except UploadError (ContentBlock M X × UploadId)) with
        | error err =>
          rw [hh] at hr
          cases hr
        | ok p =>
          obtain ⟨b, id⟩ := p
          rw [hh] at hr
          obtain ⟨r, hrest, heq⟩ := map_ok hr
          cases heq
          obtain ⟨hall, hids⟩ := ih hrest
          obtain ⟨hparse, u, hu, rfl, hin, hlen⟩ := resolveHandle_spec h hh
          have hid : handleId (.resourceLink uri details fields : ContentBlock M X) = some u.id := by
            rw [handleId, if_pos hscheme, hparse]
            rfl
          rw [filterMap_cons_some hid, hids]
          refine ⟨.cons ?_ hall, rfl⟩
          rw [Inlines, if_pos hscheme]
          exact ⟨u, hu, hparse, hin, hlen⟩
      · rw [if_neg hscheme] at hr
        refine hplain ?_ ?_ hr
        · rw [handleId, if_neg hscheme]
        · rw [Inlines, if_neg hscheme]

theorem quiet_of_answer {c : Call M X} {a : Answer M X} (hs : ∀ id, a ≠ .started id) (hw : a ≠ .written) :
    Quiet (c, a) := by
  constructor
  · cases a with
    | started id => exact absurd rfl (hs id)
    | _ => rfl
  · intro id
    cases a with
    | written => exact absurd rfl hw
    | _ => cases c <;> rfl

/-- **Every call keeps the invariant**, and one that fails changes nothing. -/
theorem StoreInv.step (h : StoreInv first events s) (hlt : (startedIds events).length < 2 ^ 64)
    (c : Call M X) :
    StoreInv first (events ++ [(c, (s.call crates c).2)]) (s.call crates c).1 ∧
      ∀ err, (s.call crates c).2 = .failed err → (s.call crates c).1 = s := by
  have hfail : ∀ err, StoreInv first (events ++ [(c, .failed err)]) s := fun err =>
    h.quiet (quiet_of_answer (by simp) (by simp))
  cases c with
  | init sessionId mime displayName totalSize sha256 now =>
    rw [Store.call]
    rcases init_cases s sessionId mime displayName totalSize sha256 now with
      ⟨err, heq⟩ | ⟨hcap, s', entry, heq, hid, hsession, hrec, hpath, hstate, hnext, hroot, hfiles⟩
    · rw [heq]
      exact ⟨hfail err, fun _ _ => rfl⟩
    · rw [heq]
      refine ⟨?_, fun err hc => absurd hc (by simp)⟩
      rw [← hid]
      exact h.init hlt hcap hid hsession hrec hpath hstate hnext hroot hfiles
  | frame bytes =>
    rw [Store.call, Store.dispatchBinaryFrame]
    by_cases hshort : bytes.length < 16
    · rw [if_pos hshort]
      exact ⟨hfail _, fun _ _ => rfl⟩
    · rw [if_neg hshort]
      dsimp only
      rcases writeChunk_cases h (fromBeBytes (bytes.take 8)) (fromBeBytes ((bytes.drop 8).take 8))
          (bytes.drop 16) with ⟨err, heq⟩ | ⟨entry, hmem, hid, hle, heq⟩
      · rw [heq]
        exact ⟨hfail err, fun _ _ => rfl⟩
      · rw [heq, ← hid]
        exact ⟨h.frame hmem hid hle, fun err hc => absurd hc (by simp)⟩
  | finish id expectedSha256 =>
    rw [Store.call]
    cases hf : s.finish crates id expectedSha256 with
    | ok handle => exact ⟨h.quiet (quiet_of_answer (by simp) (by simp)), fun _ _ => rfl⟩
    | error err => exact ⟨hfail err, fun _ _ => rfl⟩
  | abort id =>
    have hs := (abort_spec h.filed id).1
    rw [Store.call]
    unfold Store.abort at hs ⊢
    cases hget : s.manager.get id with
    | none =>
      exact ⟨hfail _, fun _ _ => rfl⟩
    | some entry =>
      rw [hget] at hs
      exact ⟨(h.shrink hs).quiet (quiet_of_answer (by simp) (by simp)),
        fun err hc => absurd hc (by simp)⟩
  | gc now ttl =>
    rw [Store.call]
    refine ⟨(h.shrink ?_).quiet (quiet_of_answer (by simp) (by simp)), fun err hc => absurd hc (by simp)⟩
    exact foldl_drop_shrinks _ h.filed (fun u hu => h.filed u (mem_of_mem_filter hu))
  | resolve blocks =>
    rw [Store.call, Store.resolveUploadHandlesWith]
    cases hr : s.resolveBlocks crates blocks with
    | error err => exact ⟨hfail err, fun _ _ => rfl⟩
    | ok r =>
      obtain ⟨out, consumed⟩ := r
      exact ⟨(h.shrink (foldl_abort_spec consumed h.filed).1).quiet
        (quiet_of_answer (by simp) (by simp)), fun err hc => absurd hc (by simp)⟩

theorem StoreInv.new (root : List Char) (seed : UInt64) (files : TmpPath → Option (List UInt8)) :
    StoreInv (max seed.toNat 1) ([] : List (Call M X × Answer M X)) (Store.new root seed files) := by
  refine ⟨rfl, ?_, nodup_nil, by simp [Store.new], fun session => Nat.zero_le _, fun id hne => ?_⟩
  · have hlt := seed.toNat_lt
    show max seed.toNat 1 = (max seed.toNat 1 + 0) % 2 ^ 64
    omega
  · exact absurd rfl hne

theorem StoreInv.run {es : List (Call M X × Answer M X)} (h : StoreInv first events s)
    (hrun : Run (Store.Step crates) s es s') (hlt : (startedIds (events ++ es)).length < 2 ^ 64) :
    StoreInv first (events ++ es) s' := by
  induction hrun generalizing events with
  | nil => rwa [append_nil]
  | @cons s t u e es hs _ ih =>
    have hlt' : (startedIds events).length < 2 ^ 64 := by
      rw [startedIds_append, length_append] at hlt
      omega
    obtain ⟨c, a⟩ := e
    have hstep := (@StoreInv.step M X crates s first events h hlt' c).1
    rw [show s.call crates c = (t, a) from hs.1] at hstep
    have hassoc : events ++ (c, a) :: es = events ++ [(c, a)] ++ es := by simp
    rw [hassoc] at hlt ⊢
    exact ih hstep hlt

/-- **The store is safe**, after any calls in any order: every live upload has no more than it
asked for, and its file holds exactly what was accepted for it; no id is given out twice; no
session has too many uploads; a call that fails changes nothing; and a call that resolves handles
puts all of each upload in its place, removes those uploads and leaves the others alone. -/
theorem upload_store_safe {root : List Char} {seed : UInt64} {files : TmpPath → Option (List UInt8)}
    (hrun : Run (Store.Step crates) (Store.new root seed files) events s)
    (hinits : (startedIds events).length < 2 ^ 64) :
    (∀ u ∈ s.manager.state, u.receivedBytes ≤ u.expectedSize ∧
        s.files u.tmpPath = some (accepted u.id events).flatten) ∧
      (startedIds events).Nodup ∧
      (∀ session, (s.manager.state.filter fun u => u.sessionId == session).length ≤
        MAX_CONCURRENT_PER_SESSION) ∧
      (∀ (c : Call M X) err, (s.call crates c).2 = .failed err →
        (s.call crates c).1.manager.state = s.manager.state ∧ (s.call crates c).1.files = s.files) ∧
      ∀ blocks s' out, s.call crates (.resolve blocks) = (s', .resolved out) →
        List.Forall₂ (Inlines crates s events) blocks out ∧ s'.manager.state =
            s.manager.state.filter (fun u => decide (u.id ∉ blocks.filterMap handleId)) ∧
          ∀ u ∈ s'.manager.state, s'.files u.tmpPath = s.files u.tmpPath := by
  have h : StoreInv (max seed.toNat 1) events s := by
    have := (StoreInv.new root seed files).run hrun
    exact this hinits
  refine ⟨fun u hu => ⟨(h.live u hu).bounded, (h.live u hu).content⟩, h.nodup (by omega), h.capped,
    fun c err herr => ?_, fun blocks s' out hcall => ?_⟩
  · have hsame := (@StoreInv.step M X crates s _ events h hinits c).2 err herr
    rw [hsame]
    exact ⟨rfl, rfl⟩
  · rw [Store.call, Store.resolveUploadHandlesWith] at hcall
    cases hr : s.resolveBlocks crates blocks with
    | error err =>
      rw [hr] at hcall
      exact absurd (Prod.mk.inj hcall).2 (by simp)
    | ok r =>
      obtain ⟨out', consumed⟩ := r
      rw [hr] at hcall
      obtain ⟨rfl, hout⟩ := Prod.mk.inj hcall
      obtain rfl := Answer.resolved.inj hout
      obtain ⟨hall, rfl⟩ := resolveBlocks_spec h hr
      obtain ⟨hs, hstate⟩ := foldl_abort_spec (blocks.filterMap handleId) h.filed
      exact ⟨hall, hstate, hs.files⟩

def pictureInit : Call Unit Unit := .init ['s'] (imageMimes ++ ['p', 'n', 'g']) ['p'] 3 none 0

def pictureFrame : Call Unit Unit :=
  .frame [0, 0, 0, 0, 0, 0, 0, 5, 0, 0, 0, 0, 0, 0, 0, 0, 77, 97, 110]

def pictureCrates : Crates := ⟨fun _ => [], fun _ => ['T', 'W', 'F', 'u']⟩

def pictureStore : Store :=
  (((Store.new ['r'] 5 fun _ => none).call pictureCrates pictureInit).1.call pictureCrates pictureFrame).1

theorem upload_store_safe_picture :
    List.Forall₂ (Inlines pictureCrates pictureStore [(pictureInit, .started 5), (pictureFrame, .written)])
        [.resourceLink (HANDLE_SCHEME ++ ['5']) () ()]
        [.image ['T', 'W', 'F', 'u'] (imageMimes ++ ['p', 'n', 'g']) ()] ∧
      (accepted 5 [(pictureInit, .started 5), (pictureFrame, .written)]).flatten = [77, 97, 110] :=
  ⟨((upload_store_safe (.cons ⟨rfl, by simp⟩ (.cons ⟨rfl, by simp⟩ .nil) :
        Run (Store.Step pictureCrates) (Store.new ['r'] 5 fun _ => none)
          [(pictureInit, .started 5), (pictureFrame, .written)] pictureStore)
      (by decide)).2.2.2.2 _ _ _ rfl).1, by decide⟩

end

end SpkEditor
