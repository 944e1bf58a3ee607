import SpkEditor.Agent.UploadProof

/-!
# The two gates of an upload

A client that is done with an upload calls `finish`, which checks the size and the digest. A
client that sends the handle without doing so meets the resolver, which checks again: but the
size alone. So the gates agree on a bundle that resolves exactly when the registered digests
are right (`gates_agree_iff`), which nothing has looked at.
-/

namespace SpkEditor

open Option

variable {M X : Type} {s : Store} {crates : Crates}

/-- What resolves has passed the gate of `finish`. -/
def GatesAgree (s : Store) (crates : Crates) (blocks : List (ContentBlock M X)) : Prop :=
  ∀ out, (s.resolveUploadHandlesWith crates blocks).2 = .ok out →
    ∀ id ∈ blocks.filterMap handleId, ∃ handle, s.finish crates id none = .ok handle

def DigestOk (s : Store) (crates : Crates) (u : UploadState) : Prop :=
  ∀ want, u.sha256 = some want → ∃ content, s.files u.tmpPath = some content ∧
      eqIgnoreAsciiCase want (hexEncode (crates.sha256 content)) = true

/-- There is a block for bytes of this type. -/
def Inlinable (u : UploadState) (bytes : List UInt8) : Prop :=
  imageMimes.isPrefixOf u.mime = true ∨ isTextLike u.mime = true ∧ (fromUtf8 bytes).isSome = true

/-- The handle of a complete upload that can be inlined. -/
def HandleResolves (s : Store) (uri : List Char) : Prop :=
  ∃ id u bytes, parseU64 (uri.drop HANDLE_SCHEME.length) = .ok id ∧ s.manager.get id = some u ∧
    u.receivedBytes = u.expectedSize ∧ s.files u.tmpPath = some bytes ∧ Inlinable u bytes

def Resolvable (s : Store) : ContentBlock M X → Prop
  | .resourceLink uri _ _ => HANDLE_SCHEME.isPrefixOf uri = true → HandleResolves s uri
  | _ => True

theorem finish_ok_iff (id : UploadId) : (∃ handle, s.finish crates id none = .ok handle) ↔
      ∃ u, s.manager.get id = some u ∧ u.receivedBytes = u.expectedSize ∧ DigestOk s crates u := by
  unfold Store.finish
  cases hget : s.manager.get id with
  | none => simp
  | some u =>
    dsimp only
    by_cases hsize : u.receivedBytes = u.expectedSize
    swap
    · rw [if_pos hsize]
      constructor
      · rintro ⟨handle, h⟩
        cases h
      · rintro ⟨v, hv, h, -⟩
        cases hv
        exact absurd h hsize
    rw [if_neg (not_not.mpr hsize), none_or]
    have hu : (∃ v, some u = some v ∧ v.receivedBytes = v.expectedSize ∧ DigestOk s crates v) ↔
        DigestOk s crates u :=
      ⟨fun ⟨v, hv, _, h⟩ => by obtain rfl := some.inj hv; exact h, fun h => ⟨u, rfl, hsize, h⟩⟩
    rw [hu, DigestOk]
    cases hsha : u.sha256 with
    | none => exact ⟨fun _ want hw => absurd hw (by simp), fun _ => ⟨_, rfl⟩⟩
    | some want =>
      cases hfile : s.files u.tmpPath with
      | none =>
        constructor
        · rintro ⟨handle, h⟩
          cases h
        · intro h
          obtain ⟨content, hc, -⟩ := h want rfl
          cases hc
      | some content =>
        dsimp only
        by_cases heq : eqIgnoreAsciiCase want (hexEncode (crates.sha256 content)) = true
        · rw [if_pos heq]
          refine ⟨fun _ w hw => ⟨content, rfl, ?_⟩, fun _ => ⟨_, rfl⟩⟩
          rwa [← some.inj hw]
        · rw [if_neg heq]
          constructor
          · rintro ⟨handle, h⟩
            cases h
          · intro h
            obtain ⟨c, hc, he⟩ := h want rfl
            cases hc
            exact absurd he heq

/-! ## The gate of the resolver -/

theorem inlined_ok_iff (u : UploadState) (bytes : List UInt8) (details : M) :
    (∃ block : ContentBlock M X, inlined crates u bytes details = .ok block) ↔ Inlinable u bytes := by
  unfold inlined Inlinable
  by_cases himage : imageMimes.isPrefixOf u.mime = true
  · rw [if_pos himage]
    exact ⟨fun _ => .inl himage, fun _ => ⟨_, rfl⟩⟩
  rw [if_neg himage]
  by_cases htext : isTextLike u.mime = true
  · rw [if_pos htext]
    cases fromUtf8 bytes with
    | none => simp [himage]
    | some text => simp [htext]
  · rw [if_neg htext]
    simp [himage, htext]

theorem map_ok_iff {ε α β : Type} {x : Except ε α} {f : α → β} :
    (∃ y, x.map f = .ok y) ↔ ∃ a, x = .ok a := by
  cases x with
  | error err => simp [Except.map]
  | ok a => exact ⟨fun _ => ⟨a, rfl⟩, fun _ => ⟨f a, rfl⟩⟩

/-- **A handle resolves** if its upload is complete and can be inlined: the digest is not asked. -/
theorem resolveHandle_ok_iff (uri : List Char) (details : M) :
    (∃ r : ContentBlock M X × UploadId, s.resolveHandle crates uri details = .ok r) ↔
      HandleResolves s uri := by
  unfold Store.resolveHandle HandleResolves
  cases hparse : parseU64 (uri.drop HANDLE_SCHEME.length) with
  | error err => simp
  | ok id =>
    dsimp only
    cases hget : s.manager.get id with
    | none =>
      constructor
      · rintro ⟨r, h⟩
        cases h
      · rintro ⟨id', u, bytes, hid, hu, -⟩
        rw [← Except.ok.inj hid, hget] at hu
        cases hu
    | some u =>
      dsimp only
      have hu : (∃ id' v bytes, (Except.ok id : Except ParseIntError Nat) = .ok id' ∧
            s.manager.get id' = some v ∧ v.receivedBytes = v.expectedSize ∧
            s.files v.tmpPath = some bytes ∧ Inlinable v bytes) ↔
          u.receivedBytes = u.expectedSize ∧ ∃ bytes, s.files u.tmpPath = some bytes ∧ Inlinable u bytes := by
        constructor
        · rintro ⟨id', v, bytes, hid, hv, hrest⟩
          rw [← Except.ok.inj hid, hget] at hv
          cases hv
          exact ⟨hrest.1, bytes, hrest.2⟩
        · rintro ⟨hsize, bytes, hrest⟩
          exact ⟨id, u, bytes, rfl, hget, hsize, hrest⟩
      rw [hu]
      by_cases hsize : u.receivedBytes = u.expectedSize
      swap
      · rw [if_pos hsize]
        simp [hsize]
      rw [if_neg (not_not.mpr hsize)]
      cases hfile : s.files u.tmpPath with
      | none => simp
      | some bytes =>
        rw [map_ok_iff, inlined_ok_iff]
        exact ⟨fun h => ⟨hsize, bytes, rfl, h⟩,
          fun ⟨_, b, hb, h⟩ => by rwa [some.inj hb]⟩

theorem resolveBlocks_ok_iff : ∀ blocks : List (ContentBlock M X),
    (∃ r, s.resolveBlocks crates blocks = .ok r) ↔ ∀ block ∈ blocks, Resolvable s block := by
  intro blocks
  induction blocks with
  | nil => exact ⟨fun _ block hb => absurd hb (by simp), fun _ => ⟨_, rfl⟩⟩
  | cons block blocks ih =>
    rw [List.forall_mem_cons]
    -- a block that stays as it is
    have hplain : ∀ b : ContentBlock M X, Resolvable s block →
        ((∃ r, (s.resolveBlocks crates blocks).map (fun r => (b :: r.1, r.2)) = .ok r) ↔
          Resolvable s block ∧ ∀ block ∈ blocks, Resolvable s block) := fun b hself => by
      rw [map_ok_iff, ih]
      exact ⟨fun h => ⟨hself, h⟩, fun h => h.2⟩
    cases block with
    | text text details => exact hplain _ trivial
    | image data mime details => exact hplain _ trivial
    | other fields => exact hplain _ trivial
    | resourceLink uri details fields =>
      rw [Store.resolveBlocks]
      by_cases hscheme : HANDLE_SCHEME.isPrefixOf uri = true
      · have hself : Resolvable s (.resourceLink uri details fields : ContentBlock M X) ↔
            ∃ r : ContentBlock M X × UploadId, s.resolveHandle crates uri details = .ok r := by
          rw [resolveHandle_ok_iff]
          exact ⟨fun h => h hscheme, fun h _ => h⟩
        rw [if_pos hscheme, hself]
        cases hh : (s.resolveHandle crates uri details : Except UploadError (ContentBlock M X × UploadId)) with
        | error err => simp
        | ok p =>
          rw [map_ok_iff, ih]
          exact ⟨fun h => ⟨⟨p, rfl⟩, h⟩, fun h => h.2⟩
      · rw [if_neg hscheme]
        exact hplain _ fun h => absurd h hscheme

theorem Resolvable.upload {block : ContentBlock M X} (h : Resolvable s block) {id : UploadId}
    (hid : handleId block = some id) :
    ∃ u, s.manager.get id = some u ∧ u.receivedBytes = u.expectedSize := by
  cases block with
  | text text details => exact absurd hid (by simp [handleId])
  | image data mime details => exact absurd hid (by simp [handleId])
  | other fields => exact absurd hid (by simp [handleId])
  | resourceLink uri details fields =>
    rw [handleId] at hid
    by_cases hscheme : HANDLE_SCHEME.isPrefixOf uri = true
    · rw [if_pos hscheme] at hid
      obtain ⟨id', u, bytes, hparse, hu, hsize, -⟩ := h hscheme
      rw [hparse] at hid
      cases hid
      exact ⟨u, hu, hsize⟩
    · rw [if_neg hscheme] at hid
      cases hid

/-- **When the gates agree.** The size is checked at both, the digest at the first alone: on a
bundle that resolves they agree exactly if the digest of each of its uploads is the registered
one. -/
theorem gates_agree_iff (s : Store) (crates : Crates) (blocks : List (ContentBlock M X)) :
    GatesAgree s crates blocks ↔ ((∀ block ∈ blocks, Resolvable s block) →
        ∀ id ∈ blocks.filterMap handleId, ∀ u, s.manager.get id = some u → DigestOk s crates u) := by
  have hok : (∃ out, (s.resolveUploadHandlesWith crates blocks).2 = .ok out) ↔
      ∀ block ∈ blocks, Resolvable s block := by
    rw [← @resolveBlocks_ok_iff M X s crates blocks, Store.resolveUploadHandlesWith]
    cases s.resolveBlocks crates blocks with
    | error err => simp
    | ok r => exact ⟨fun _ => ⟨r, rfl⟩, fun _ => ⟨r.1, rfl⟩⟩
  constructor
  · intro h hall id hid u hu
    obtain ⟨out, hout⟩ := hok.mpr hall
    obtain ⟨v, hv, -, hdigest⟩ := (finish_ok_iff id).mp (h out hout id hid)
    rw [hu] at hv
    rwa [some.inj hv]
  · intro h out hout id hid
    have hall := hok.mp ⟨out, hout⟩
    obtain ⟨block, hblock, hb⟩ := List.mem_filterMap.mp hid
    obtain ⟨u, hu, hsize⟩ := (hall block hblock).upload hb
    exact (finish_ok_iff id).mpr ⟨u, hu, hsize, h hall id hid u hu⟩

/-- The picture, with a digest that is not its own. -/
def forgedInit : Call Unit Unit :=
  .init ['s'] (imageMimes ++ ['p', 'n', 'g']) ['p'] 3 (some (List.replicate 64 'f')) 0

def forgedCrates : Crates := ⟨fun _ => List.replicate 32 0, fun _ => ['T', 'W', 'F', 'u']⟩

def forgedStore : Store :=
  (((Store.new ['r'] 5 fun _ => none).call forgedCrates forgedInit).1.call forgedCrates pictureFrame).1

/-- **The bytes of a forged upload are inlined**: three bytes of three came, and `finish` would
have said that the digest is wrong. -/
theorem gates_differ : Run (Store.Step forgedCrates) (Store.new ['r'] 5 fun _ => none)
        [(forgedInit, .started 5), (pictureFrame, .written)] forgedStore ∧
      ¬GatesAgree forgedStore forgedCrates
        [(.resourceLink (HANDLE_SCHEME ++ ['5']) () () : ContentBlock Unit Unit)] := by
  refine ⟨.cons ⟨rfl, by simp⟩ (.cons ⟨rfl, by simp⟩ .nil), fun h => ?_⟩
  obtain ⟨handle, hf⟩ := h [.image ['T', 'W', 'F', 'u'] (imageMimes ++ ['p', 'n', 'g']) ()] rfl 5 (by decide)
  have hbad : forgedStore.finish forgedCrates 5 none =
      .error (.shaMismatch 5 (List.replicate 64 'f') (List.replicate 64 '0')) := by decide
  rw [hbad] at hf
  cases hf

end SpkEditor
