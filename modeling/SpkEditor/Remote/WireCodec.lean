import SpkEditor.Agent.Upload

/-!
# The wire codec

`remote_control/src/wire_codec.rs`: a message of the remote protocol travels compressed if
that makes it smaller. A frame is a header of ten bytes (a magic number, the format, the
dictionary, the length of the text in 32 bits) and a zlib stream.

Encoder and decoder drive the streaming interface of `flate2`, which is a parameter here: both
are loops that hand over what is left of the input and collect what comes out.

A frame is decoded to its text exactly if the text is no longer than the decoder's cap; the
encoder does not look at the cap.
-/

namespace SpkEditor.WireCodec

open List

/-! ## The streaming interface -/

inductive Status where
  | ok
  | bufError
  | streamEnd

inductive InflateError where
  | needsDictionary
  | other

/-- What a call did: the state it left, how much of the input it consumed, what it put into the
output, and what it returned. -/
structure Call (σ ε : Type) where
  state : σ
  consumed : Nat
  produced : List UInt8
  result : Except ε Status

/-- `flate2`: `Compress` and `Decompress`, with a zlib header and every call a `Finish`. A call
gets its input and the room in the output. -/
structure Flate where
  Compress : Type
  newCompress : Compress
  setDictionary : Compress → List UInt8 → Except Unit Compress
  compress : Compress → List UInt8 → Nat → Call Compress Unit
  Decompress : Type
  newDecompress : Decompress
  learnDictionary : Decompress → List UInt8 → Except Unit Decompress
  decompress : Decompress → List UInt8 → Nat → Call Decompress InflateError

/-- The contract of `flate2`. `Stream dict text z` says that `z` is a zlib stream of `text` made
with the dictionary; `Deflating` and `Inflating` say how far a state has come with one. -/
structure Flate.Contract (F : Flate) where
  Stream : Option (List UInt8) → List UInt8 → List UInt8 → Prop
  Deflating : F.Compress → Option (List UInt8) → List UInt8 → Nat → List UInt8 → Prop
  Inflating : F.Decompress → Option (List UInt8) → List UInt8 → List UInt8 → Nat → Nat → Prop
  /-- The state has been told its dictionary. -/
  Informed : F.Decompress → Prop
  deflating_new : ∀ text, Deflating F.newCompress none text 0 []
  deflating_dictionary : ∀ text dict c, F.setDictionary F.newCompress dict = .ok c →
    Deflating c (some dict) text 0 []
  /-- Called with the rest of the text, the encoder goes on with the stream; at the end of the
  stream, what came out is a stream of the text. -/
  deflating_call : ∀ {c dict text pos out}, Deflating c dict text pos out → ∀ room status,
    (F.compress c (text.drop pos) room).result = .ok status →
      Deflating (F.compress c (text.drop pos) room).state dict text
        (pos + (F.compress c (text.drop pos) room).consumed)
        (out ++ (F.compress c (text.drop pos) room).produced) ∧
      (status = .streamEnd → Stream dict text (out ++ (F.compress c (text.drop pos) room).produced))
  /-- The decoder consumes no more than it is given and fills no more than it has room for. -/
  consumed_le : ∀ d input room, (F.decompress d input room).consumed ≤ input.length
  produced_le : ∀ d input room, (F.decompress d input room).produced.length ≤ room
  /-- It asks for a dictionary only until it has one. -/
  informed_learn : ∀ d dict d', F.learnDictionary d dict = .ok d' → Informed d'
  informed_call : ∀ d input room, Informed d → Informed (F.decompress d input room).state
  informed_result : ∀ d input room, Informed d →
    (F.decompress d input room).result ≠ .error .needsDictionary
  inflating_new : ∀ {dict text z}, Stream dict text z → Inflating F.newDecompress dict text z 0 0
  /-- Called with the rest of a stream and some room, the decoder puts out what comes next in
  the text. It ends behind the last byte, and until then it makes progress or asks for the
  dictionary of the stream, which it accepts. -/
  inflating_call : ∀ {d dict text z i o}, Inflating d dict text z i o → ∀ room, 0 < room →
    (F.decompress d (z.drop i) room).produced =
        (text.drop o).take (F.decompress d (z.drop i) room).produced.length ∧
      match (F.decompress d (z.drop i) room).result with
      | .ok .streamEnd => o + (F.decompress d (z.drop i) room).produced.length = text.length
      | .ok _ =>
        0 < (F.decompress d (z.drop i) room).consumed +
            (F.decompress d (z.drop i) room).produced.length ∧
          Inflating (F.decompress d (z.drop i) room).state dict text z
            (i + (F.decompress d (z.drop i) room).consumed)
            (o + (F.decompress d (z.drop i) room).produced.length)
      | .error .needsDictionary =>
        ∃ known d', dict = some known ∧
          F.learnDictionary (F.decompress d (z.drop i) room).state known = .ok d' ∧
          Inflating d' dict text z (i + (F.decompress d (z.drop i) room).consumed)
            (o + (F.decompress d (z.drop i) room).produced.length)
      | .error .other => False

def MAGIC : List UInt8 := [0x73, 0x70, 0x6B, 0x7A]

def FORMAT_DEFLATE : UInt8 := 1

def HEADER_BYTES : Nat := 10

def MAX_DECOMPRESSED_BYTES : Nat := 32 * 1024 * 1024

def WIRE_DICT_NONE : UInt8 := 0

def WIRE_DICT_PROTO_V1 : UInt8 := 1

/-- The text of the preset dictionary; it is ASCII. -/
def wireDictProtoV1 : String :=
  "remote.solution_agent.list_solutions remote.solution_agent.solution_details " ++
  "remote.solution_agent.list_sessions remote.solution_agent.get_session " ++
  "remote.solution_agent.read_session_history remote.solution_agent.send_message " ++
  "remote.solution_agent.start_compact remote.solution_agent.reset_context " ++
  "remote.solution_agent.rename_session remote.solution_agent.delete_session " ++
  "remote.solution_agent.cancel_turn remote.solution_agent.authorize_tool_call " ++
  "remote.solution_agent.get_session_background_shells " ++
  "remote.solution_agent.get_session_background_agents " ++
  "remote.solution_agent.upload_init remote.solution_agent.upload_chunk " ++
  "remote.solution_agent.upload_finish remote.solution_agent.upload_status " ++
  "session_state_changed session_entry_appended session_entry_updated " ++
  "session_queue_changed session_created session_deleted agent_session_context_reset " ++
  "workspace_session_metrics_changed upload_chunk_acked remote/notification " ++
  "awaiting_input waiting_for_confirmation tool_status_started_at_ms " ++
  "stopping running pending errored failed rejected canceled assistant " ++
  "\"parent_session_id\":\"acp_session_id\":\"active_subagents\":[\"background_agents\"" ++
  "\"last_activity_at\":\"total_tokens\":\"max_tokens\":\"created_at\":\"context_count\":" ++
  "\"solution_id\":\"agent_id\":\"session_id\":\"display_name\":\"total_size\":" ++
  "\"received_bytes\":\"upload_id\":\"started_at_ms\":\"created_ms\":\"tool_call\":\x7b" ++
  "\"entries\":[\"sessions\":[\"total_count\":\"title\":\"state\":\x7b\"kind\":\"" ++
  "\"index\":\"role\":\"name\":\"status\":\"args\":\"text\":\"mime\":\"cwd\":\"" ++
  "tool_call user assistant idle done \"params\":\x7b\"kind\":\"" ++
  "\x7b\"jsonrpc\":\"2.0\",\"id\":,\"method\":\"remote/notification\",\"params\":\x7b" ++
  "\"result\":\x7b\"error\":\x7b\"code\":,\"message\":\""

def WIRE_DICT_PROTO_V1_BYTES : List UInt8 :=
  wireDictProtoV1.toList.map fun c => UInt8.ofNat c.toNat

/-- `dictionary_for`. -/
def dictionaryFor (dictId : UInt8) : Option (List UInt8) :=
  if dictId = WIRE_DICT_PROTO_V1 then some WIRE_DICT_PROTO_V1_BYTES else none

/-- `is_compressed`. -/
def isCompressed (frame : List UInt8) : Bool :=
  HEADER_BYTES ≤ frame.length ∧ frame.take 4 = MAGIC ∧ frame[4]? = some FORMAT_DEFLATE

/-- `u32::to_be_bytes` of a length cast to 32 bits. -/
def lengthBytes (n : Nat) : List UInt8 :=
  let n := n % 2 ^ 32
  [UInt8.ofNat (n / 2 ^ 24), UInt8.ofNat (n / 2 ^ 16 % 2 ^ 8), UInt8.ofNat (n / 2 ^ 8 % 2 ^ 8),
    UInt8.ofNat (n % 2 ^ 8)]

def header (text : List UInt8) (dictId : UInt8) : List UInt8 :=
  MAGIC ++ FORMAT_DEFLATE :: dictId :: lengthBytes text.length

inductive EncodeError where
  | setDictionary
  | deflate
  | stalled
deriving DecidableEq

inductive DecodeError where
  | notCompressed
  | exceedsCap (declared : Nat)
  | unknownDictionary (dictId : UInt8)
  | setDictionary
  | inflateFailed
  | exceedsDeclared (declared : Nat)
  | truncated (produced declared : Nat)
  | lengthMismatch (produced declared : Nat)

section

variable (F : Flate)

/-- The loop of `compress`, with 16384 bytes of room in each call. -/
def compressLoop (text : List UInt8) : (fuel : Nat) → F.Compress → (pos : Nat) →
    (out : List UInt8) → Option (Except EncodeError (List UInt8))
  | 0, _, _, _ => none
  | fuel + 1, c, pos, out =>
    let call := F.compress c (text.drop pos) 16384
    let pos := pos + call.consumed
    let out := out ++ call.produced
    match call.result with
    | .error _ => some (.error .deflate)
    | .ok .streamEnd => some (.ok out)
    | .ok _ =>
      if call.produced = [] ∧ text.length ≤ pos then some (.error .stalled)
      else compressLoop text fuel call.state pos out

/-- `compress`: the header, and behind it the stream. -/
def compress (fuel : Nat) (text : List UInt8) (dictId : UInt8) :
    Option (Except EncodeError (List UInt8)) :=
  let stream :=
    match (if dictId ≠ WIRE_DICT_NONE then dictionaryFor dictId else none) with
    | none => compressLoop F text fuel F.newCompress 0 []
    | some dict =>
      match F.setDictionary F.newCompress dict with
      | .error _ => some (.error .setDictionary)
      | .ok c => compressLoop F text fuel c 0 []
  stream.map fun r => r.map (header text dictId ++ ·)

/-- `compress_if_worthwhile`. -/
def compressIfWorthwhile (fuel : Nat) (text : List UInt8) (dictId : UInt8) (threshold : Nat) :
    Option (Option (List UInt8)) :=
  if text.length < threshold then some none
  else
    (compress F fuel text dictId).map fun
      | .ok frame => if frame.length < text.length then some frame else none
      | .error _ => none

/-- The loop of `decompress`. The buffer has one byte more than was declared. -/
def decompressLoop (dictId : UInt8) (payload : List UInt8) (declared : Nat) : (fuel : Nat) →
    F.Decompress → (inPos : Nat) → (out : List UInt8) →
    Option (Except DecodeError (List UInt8))
  | 0, _, _, _ => none
  | fuel + 1, d, inPos, out =>
    let call := F.decompress d (payload.drop inPos) (declared + 1 - out.length)
    let inPos := inPos + call.consumed
    let out := out ++ call.produced
    match call.result with
    | .error .needsDictionary =>
      match dictionaryFor dictId with
      | none => some (.error (.unknownDictionary dictId))
      | some dict =>
        match F.learnDictionary call.state dict with
        | .error _ => some (.error .setDictionary)
        | .ok d => decompressLoop dictId payload declared fuel d inPos out
    | .error .other => some (.error .inflateFailed)
    | .ok .streamEnd =>
      if out.length ≠ declared then some (.error (.lengthMismatch out.length declared))
      else some (.ok out)
    | .ok _ =>
      if declared < out.length then some (.error (.exceedsDeclared declared))
      else if call.consumed = 0 ∧ call.produced = [] then
        some (.error (.truncated out.length declared))
      else decompressLoop dictId payload declared fuel call.state inPos out

def declaredLength (frame : List UInt8) : Nat := fromBeBytes ((frame.drop 6).take 4)

/-- `decompress`. -/
def decompress (fuel : Nat) (frame : List UInt8) : Option (Except DecodeError (List UInt8)) :=
  if ¬ isCompressed frame then some (.error .notCompressed)
  else
    let dictId := frame.getD 5 0
    let declared := declaredLength frame
    if MAX_DECOMPRESSED_BYTES < declared then some (.error (.exceedsCap declared))
    else
      decompressLoop F dictId (frame.drop HEADER_BYTES) declared fuel F.newDecompress 0 []

end

section

variable {text z : List UInt8} {dictId : UInt8}

theorem length_header : (header text dictId).length = HEADER_BYTES := rfl

theorem isCompressed_frame : isCompressed (header text dictId ++ z) = true := by
  simp [isCompressed, header, HEADER_BYTES, MAGIC, lengthBytes]

theorem dictId_frame : (header text dictId ++ z).getD 5 0 = dictId := rfl

theorem payload_frame : (header text dictId ++ z).drop HEADER_BYTES = z := by
  rw [← length_header, drop_left]

theorem declaredLength_frame : declaredLength (header text dictId ++ z) = text.length % 2 ^ 32 := by
  have hlen : ((header text dictId ++ z).drop 6).take 4 = lengthBytes text.length := rfl
  rw [declaredLength, hlen, lengthBytes]
  have hlt : text.length % 2 ^ 32 < 2 ^ 32 := Nat.mod_lt _ (by omega)
  generalize text.length % 2 ^ 32 = n at *
  simp only [fromBeBytes, foldl_cons, foldl_nil, UInt8.toNat_ofNat']
  omega

theorem uploadId_frame : 2 ^ 56 ≤ fromBeBytes ((header text dictId ++ z).take 8) := by
  have htake : (header text dictId ++ z).take 8 =
      [0x73, 0x70, 0x6B, 0x7A, FORMAT_DEFLATE, dictId] ++ (lengthBytes text.length).take 2 := rfl
  rw [htake, lengthBytes]
  simp only [fromBeBytes, take_succ_cons, take_zero, cons_append, nil_append, foldl_cons, foldl_nil]
  have h : (0x73 : UInt8).toNat = 0x73 := rfl
  omega

end

section

variable {F : Flate} (hF : F.Contract)

theorem compressLoop_stream {text : List UInt8} {dict : Option (List UInt8)} {fuel : Nat}
    {c : F.Compress} {pos : Nat} {out z : List UInt8} (h : hF.Deflating c dict text pos out)
    (hr : compressLoop F text fuel c pos out = some (.ok z)) : hF.Stream dict text z := by
  induction fuel generalizing c pos out with
  | zero => simp [compressLoop] at hr
  | succ fuel ih =>
    simp only [compressLoop] at hr
    cases hres : (F.compress c (text.drop pos) 16384).result with
    | error e => simp [hres] at hr
    | ok status =>
      obtain ⟨hgo, hend⟩ := hF.deflating_call h 16384 status hres
      rw [hres] at hr
      cases status with
      | streamEnd =>
        obtain rfl := Except.ok.inj (Option.some.inj hr)
        exact hend rfl
      | ok | bufError =>
        dsimp only at hr
        split at hr
        · simp at hr
        · exact ih hgo hr

theorem dictionaryFor_none : dictionaryFor WIRE_DICT_NONE = none := rfl

/-- **What `compress` returns is the header and a stream of the text.** -/
theorem compress_frame {fuel : Nat} {text frame : List UInt8} {dictId : UInt8}
    (h : compress F fuel text dictId = some (.ok frame)) :
    ∃ z, frame = header text dictId ++ z ∧ hF.Stream (dictionaryFor dictId) text z := by
  have hdict : (if dictId ≠ WIRE_DICT_NONE then dictionaryFor dictId else none) =
      dictionaryFor dictId := by
    split
    · rfl
    · rename_i hnone
      rw [not_not.mp hnone, dictionaryFor_none]
  simp only [compress, hdict] at h
  obtain ⟨r, hr, hframe⟩ := Option.map_eq_some_iff.mp h
  cases r with
  | error e => simp [Except.map] at hframe
  | ok z =>
    obtain rfl := Except.ok.inj hframe
    refine ⟨z, rfl, ?_⟩
    split at hr
    · rename_i hnone
      rw [hnone]
      exact compressLoop_stream hF (hF.deflating_new text) hr
    · rename_i dict hsome
      rw [hsome]
      split at hr
      · simp at hr
      · rename_i c hset
        exact compressLoop_stream hF (hF.deflating_dictionary text dict c hset) hr

/-- **The decoder ends**: every turn makes progress, or is the one that asks for the
dictionary. What it returns has the declared length. -/
theorem decompressLoop_total {dictId : UInt8} {payload : List UInt8} {declared asks fuel : Nat}
    {d : F.Decompress} {inPos : Nat} {out : List UInt8} (hasks : asks = 0 → hF.Informed d)
    (hout : out.length ≤ declared + 1)
    (hfuel : payload.length - inPos + (declared + 1 - out.length) + asks < fuel) :
    ∃ r, decompressLoop F dictId payload declared fuel d inPos out = some r ∧
      ∀ t, r = .ok t → t.length = declared := by
  induction fuel generalizing asks d inPos out with
  | zero => omega
  | succ fuel ih =>
    have hin := hF.consumed_le d (payload.drop inPos) (declared + 1 - out.length)
    have hroom := hF.produced_le d (payload.drop inPos) (declared + 1 - out.length)
    rw [length_drop] at hin
    have hcall := hF.informed_call d (payload.drop inPos) (declared + 1 - out.length)
    have hask := hF.informed_result d (payload.drop inPos) (declared + 1 - out.length)
    simp only [decompressLoop]
    generalize F.decompress d (payload.drop inPos) (declared + 1 - out.length) = call at *
    have hlen : (out ++ call.produced).length = out.length + call.produced.length :=
      length_append
    cases hres : call.result with
    | error e =>
      cases e with
      | needsDictionary =>
        have hpos : asks ≠ 0 := fun h0 => hask (hasks h0) hres
        dsimp only
        split
        · exact ⟨_, rfl, by simp⟩
        · split
          · exact ⟨_, rfl, by simp⟩
          · rename_i d' hlearn
            -- it will not ask again
            exact @ih 0 _ _ _ (fun _ => hF.informed_learn _ _ _ hlearn) (by omega) (by omega)
      | other => exact ⟨_, rfl, by simp⟩
    | ok status =>
      cases status with
      | streamEnd =>
        dsimp only
        split
        · exact ⟨_, rfl, by simp⟩
        · rename_i hdecl
          refine ⟨_, rfl, ?_⟩
          intro t ht
          obtain rfl := Except.ok.inj ht
          exact not_not.mp hdecl
      | ok | bufError =>
        dsimp only
        split
        · exact ⟨_, rfl, by simp⟩
        · split
          · exact ⟨_, rfl, by simp⟩
          · rename_i hstall
            have hprogress : 0 < call.consumed + call.produced.length := by
              rcases Nat.eq_zero_or_pos call.consumed with h0 | h0
              · have := List.length_pos_iff.mpr fun hnil => hstall ⟨h0, hnil⟩
                omega
              · omega
            exact ih (fun h0 => hcall (hasks h0)) (by omega) (by omega)

/-- **On a stream of the text the decoder returns the text**, if it returns. -/
theorem decompressLoop_stream {dictId : UInt8} {text z : List UInt8} {fuel : Nat}
    {d : F.Decompress} {i o : Nat}
    (h : hF.Inflating d (dictionaryFor dictId) text z i o) (ho : o ≤ text.length)
    {r : Except DecodeError (List UInt8)}
    (hr : decompressLoop F dictId z text.length fuel d i (text.take o) = some r) :
    r = .ok text := by
  induction fuel generalizing d i o with
  | zero => simp [decompressLoop] at hr
  | succ fuel ih =>
    have hlen : (text.take o).length = o := by
      rw [length_take]
      omega
    obtain ⟨hprod, hcall⟩ := hF.inflating_call h (text.length + 1 - o) (by omega)
    simp only [decompressLoop, hlen] at hr
    generalize F.decompress d (z.drop i) (text.length + 1 - o) = call at *
    -- what is out by now is the text up to the new position
    have hout : text.take o ++ call.produced = text.take (o + call.produced.length) := by
      rw [take_add, ← hprod]
    have ho' : o + call.produced.length ≤ text.length := by
      have := congrArg List.length hprod
      rw [length_take, length_drop] at this
      omega
    have hlen' : (text.take (o + call.produced.length)).length = o + call.produced.length := by
      rw [length_take]
      omega
    rw [hout] at hr
    cases hres : call.result with
    | error e =>
      rw [hres] at hr hcall
      cases e with
      | needsDictionary =>
        obtain ⟨known, d', hdict, hlearn, hgo⟩ := hcall
        simp only [hdict, hlearn] at hr
        exact ih hgo ho' hr
      | other => exact hcall.elim
    | ok status =>
      rw [hres] at hr hcall
      cases status with
      | streamEnd =>
        rw [hcall, take_length, if_neg (by simp)] at hr
        exact (Option.some.inj hr).symm
      | ok | bufError =>
        obtain ⟨hprogress, hgo⟩ := hcall
        dsimp only at hr
        rw [if_neg (by omega), if_neg ?_] at hr
        · exact ih hgo ho' hr
        · rintro ⟨h0, hnil⟩
          rw [h0, hnil] at hprogress
          simp at hprogress

/-! ## Frames and their texts -/

/-- What a frame of a text is to be: recognised as compressed, no upload frame with an id below
`2 ^ 56` (the id that `dispatch_binary_frame` reads), and decoded to the text. -/
structure Carries (F : Flate) (text frame : List UInt8) : Prop where
  recognised : isCompressed frame = true
  noUpload : 2 ^ 56 ≤ fromBeBytes (frame.take 8)
  decodes : ∀ fuel, frame.length + MAX_DECOMPRESSED_BYTES + 2 < fuel →
    decompress F fuel frame = some (.ok text)

include hF in
/-- **Every frame is decoded or refused**, within a bounded number of turns. -/
theorem decompress_total {fuel : Nat} {frame : List UInt8}
    (hfuel : frame.length + MAX_DECOMPRESSED_BYTES + 2 < fuel) :
    ∃ r, decompress F fuel frame = some r ∧ ∀ out, r = .ok out →
      out.length = declaredLength frame ∧ out.length ≤ MAX_DECOMPRESSED_BYTES := by
  rw [decompress]
  split
  · exact ⟨_, rfl, by simp⟩
  · dsimp only
    split
    · exact ⟨_, rfl, by simp⟩
    · rename_i hcap
      obtain ⟨r, hr, hlen⟩ := @decompressLoop_total F hF (frame.getD 5 0)
        (frame.drop HEADER_BYTES) (declaredLength frame) 1 fuel F.newDecompress 0 []
        (by simp) (by simp) (by
          rw [length_drop, length_nil]
          omega)
      refine ⟨r, hr, ?_⟩
      intro out hout
      have := hlen out hout
      omega

theorem carries_iff {text z : List UInt8} {dictId : UInt8}
    (hz : hF.Stream (dictionaryFor dictId) text z) :
    Carries F text (header text dictId ++ z) ↔ text.length ≤ MAX_DECOMPRESSED_BYTES := by
  have hdecl := @declaredLength_frame text z dictId
  have hcap : MAX_DECOMPRESSED_BYTES < 2 ^ 32 := by decide
  constructor
  · intro h
    obtain ⟨r, hr, hlen⟩ := decompress_total hF (Nat.lt_succ_self
      ((header text dictId ++ z).length + MAX_DECOMPRESSED_BYTES + 2))
    rw [h.decodes _ (Nat.lt_succ_self _)] at hr
    exact (hlen text (Option.some.inj hr).symm).2
  · intro htext
    refine ⟨isCompressed_frame, uploadId_frame, ?_⟩
    intro fuel hfuel
    obtain ⟨r, hr, -⟩ := decompress_total hF hfuel
    rw [hr]
    rw [decompress, if_neg (by simp [isCompressed_frame])] at hr
    rw [hdecl, Nat.mod_eq_of_lt (by omega), if_neg (by omega), dictId_frame, payload_frame] at hr
    exact congrArg some (decompressLoop_stream hF (hF.inflating_new hz) (Nat.zero_le _) hr)

/-- **The wire codec carries exactly the texts below the cap**: every frame that is sent for a
text is decoded to it if and only if the text is no longer than the decoder allows; and the
decoder ends on every frame, with the declared length or an error. -/
theorem wire_codec_carries_iff {F : Flate} (hF : F.Contract) : (∀ fuel text dictId threshold frame,
        compressIfWorthwhile F fuel text dictId threshold = some (some frame) →
          (Carries F text frame ↔ text.length ≤ MAX_DECOMPRESSED_BYTES)) ∧
      ∀ fuel frame, frame.length + MAX_DECOMPRESSED_BYTES + 2 < fuel →
        ∃ r, decompress F fuel frame = some r ∧ ∀ out, r = .ok out →
          out.length = declaredLength frame ∧ out.length ≤ MAX_DECOMPRESSED_BYTES := by
  refine ⟨?_, fun fuel frame hfuel => decompress_total hF hfuel⟩
  intro fuel text dictId threshold frame h
  rw [compressIfWorthwhile] at h
  split at h
  · simp at h
  · obtain ⟨r, hr, hworth⟩ := Option.map_eq_some_iff.mp h
    split at hworth
    · rename_i frame'
      split at hworth
      · cases hworth
        obtain ⟨z, rfl, hz⟩ := compress_frame hF hr
        exact carries_iff hF hz
      · simp at hworth
    · simp at hworth

end

section

variable (text stream : List UInt8)

/-- A call that hands out what is pending. -/
def flushed (ε : Type) (consumed room : Nat) (pending : List UInt8) :
    Call (Option (List UInt8)) ε :=
  ⟨some (pending.drop room), consumed, pending.take room,
    .ok (if pending.length ≤ room then .streamEnd else .ok)⟩

def tableDeflate (t : List UInt8) : List UInt8 := if t = text then stream else 0 :: t

def tableInflate (z : List UInt8) : Option (List UInt8) :=
  if z = stream then some text
  else
    match z with
    | 0 :: t => some t
    | _ => none

/-- A codec that knows the stream of one text, and stores every other text behind a zero. A
state is what is still to be handed out. -/
def tableFlate : Flate where
  Compress := Option (List UInt8)
  newCompress := none
  setDictionary c _ := .ok c
  compress c input room :=
    match c with
    | none => flushed Unit input.length room (tableDeflate text stream input)
    | some pending => flushed Unit 0 room pending
  Decompress := Option (List UInt8)
  newDecompress := none
  learnDictionary d _ := .ok d
  decompress d input room :=
    match d with
    | some rest => flushed InflateError 0 room rest
    | none =>
      match tableInflate text stream input with
      | none => ⟨none, 0, [], .error .other⟩
      | some rest => flushed InflateError input.length room rest

variable {text stream}

theorem tableInflate_tableDeflate (hs : stream.head? ≠ some 0) (t : List UInt8) :
    tableInflate text stream (tableDeflate text stream t) = some t := by
  unfold tableInflate tableDeflate
  by_cases ht : t = text
  · rw [if_pos ht, if_pos rfl, ht]
  · have hne : 0 :: t ≠ stream := by
      intro h
      exact hs (h ▸ rfl)
    rw [if_neg ht, if_neg hne]
    rfl

theorem flushed_spec {ε : Type} {consumed room o : Nat} {t : List UInt8} (hroom : 0 < room)
    (ho : o ≤ t.length) :
    (flushed ε consumed room (t.drop o)).produced =
        (t.drop o).take (flushed ε consumed room (t.drop o)).produced.length ∧
      ((t.drop o).length ≤ room → o + (flushed ε consumed room (t.drop o)).produced.length =
        t.length) ∧
      (¬ (t.drop o).length ≤ room → 0 < (flushed ε consumed room (t.drop o)).produced.length ∧
        (flushed ε consumed room (t.drop o)).state =
          some (t.drop (o + (flushed ε consumed room (t.drop o)).produced.length)) ∧
        o + (flushed ε consumed room (t.drop o)).produced.length ≤ t.length) := by
  have hlen : (flushed ε consumed room (t.drop o)).produced.length = min room (t.length - o) := by
    rw [flushed, length_take, length_drop]
  rw [hlen, length_drop]
  refine ⟨?_, fun h => by omega, fun h => ⟨by omega, ?_, by omega⟩⟩
  · rw [flushed, ← length_drop, take_eq_take_min]
  · rw [flushed, drop_drop, Nat.min_eq_left (by omega)]

def tableContract (hs : stream.head? ≠ some 0) : (tableFlate text stream).Contract where
  Stream _ t z := z = tableDeflate text stream t
  Deflating c _ t pos out :=
    (c = none ∧ pos = 0 ∧ out = []) ∨
      ∃ pending : List UInt8, c = some pending ∧ out ++ pending = tableDeflate text stream t
  Inflating d _ t z i o :=
    (d = none ∧ z.drop i = tableDeflate text stream t ∧ o = 0) ∨ (d = some (t.drop o) ∧ o ≤ t.length)
  Informed _ := True
  deflating_new _ := Or.inl ⟨rfl, rfl, rfl⟩
  deflating_dictionary _ _ c h := Or.inl ⟨(Except.ok.inj h).symm, rfl, rfl⟩
  deflating_call := by
    intro c dict t pos out h room status hres
    have hflush : ∃ consumed pending, (tableFlate text stream).compress c (t.drop pos) room =
        flushed Unit consumed room pending ∧ out ++ pending = tableDeflate text stream t := by
      rcases h with ⟨rfl, rfl, rfl⟩ | ⟨pending, rfl, hpending⟩
      · exact ⟨_, _, rfl, rfl⟩
      · exact ⟨_, _, rfl, hpending⟩
    obtain ⟨consumed, pending, hcall, hpending⟩ := hflush
    rw [hcall] at hres ⊢
    refine ⟨Or.inr ⟨pending.drop room, rfl, ?_⟩, ?_⟩
    · rw [flushed, append_assoc, take_append_drop, hpending]
    · rintro rfl
      have hle : pending.length ≤ room := by
        by_contra hgt
        simp [flushed, hgt] at hres
      rw [flushed, take_of_length_le hle, hpending]
  consumed_le d input room := by
    cases d with
    | some rest => exact Nat.zero_le _
    | none =>
      simp only [tableFlate]
      cases tableInflate text stream input with
      | none => exact Nat.zero_le _
      | some rest => exact Nat.le_refl _
  produced_le d input room := by
    cases d with
    | some rest => exact length_take_le _ _
    | none =>
      simp only [tableFlate]
      cases tableInflate text stream input with
      | none => exact Nat.zero_le _
      | some rest => exact length_take_le _ _
  informed_learn _ _ _ _ := trivial
  informed_call _ _ _ _ := trivial
  informed_result d input room _ := by
    cases d with
    | some rest => simp [tableFlate, flushed]
    | none =>
      simp only [tableFlate]
      cases tableInflate text stream input with
      | none => simp
      | some rest => simp [flushed]
  inflating_new h := Or.inl ⟨rfl, h, rfl⟩
  inflating_call := by
    intro d dict t z i o h room hroom
    have hflush : ∃ consumed, (tableFlate text stream).decompress d (z.drop i) room =
        flushed InflateError consumed room (t.drop o) ∧ o ≤ t.length := by
      rcases h with ⟨rfl, hz, rfl⟩ | ⟨rfl, ho⟩
      · refine ⟨(z.drop i).length, ?_, Nat.zero_le _⟩
        simp only [tableFlate, hz, tableInflate_tableDeflate hs, drop_zero]
      · exact ⟨0, rfl, ho⟩
    obtain ⟨consumed, hcall, ho⟩ := hflush
    obtain ⟨hprod, hend, hgo⟩ := @flushed_spec InflateError consumed room o t hroom ho
    rw [hcall]
    refine ⟨hprod, ?_⟩
    by_cases hle : (t.drop o).length ≤ room
    · have hres : (flushed InflateError consumed room (t.drop o)).result = .ok .streamEnd := by
        rw [flushed, if_pos hle]
      rw [hres]
      exact hend hle
    · have hres : (flushed InflateError consumed room (t.drop o)).result = .ok .ok := by
        rw [flushed, if_neg hle]
      rw [hres]
      obtain ⟨hpos, hstate, hlen⟩ := hgo hle
      exact ⟨by omega, Or.inr ⟨hstate, hlen⟩⟩

theorem compressLoop_flushed {t out pending : List UInt8} {fuel pos consumed : Nat}
    {c : (tableFlate text stream).Compress}
    (hc : (tableFlate text stream).compress c (t.drop pos) 16384 =
      flushed Unit consumed 16384 pending) (hfuel : pending.length < fuel) :
    compressLoop (tableFlate text stream) t fuel c pos out = some (.ok (out ++ pending)) := by
  induction fuel generalizing c pos out consumed pending with
  | zero => omega
  | succ fuel ih =>
    simp only [compressLoop, hc]
    by_cases hle : pending.length ≤ 16384
    · have hres : (flushed Unit consumed 16384 pending).result = .ok .streamEnd := by
        rw [flushed, if_pos hle]
      have hall : (flushed Unit consumed 16384 pending).produced = pending := by
        rw [flushed, take_of_length_le hle]
      rw [hres, hall]
    · have hres : (flushed Unit consumed 16384 pending).result = .ok .ok := by
        rw [flushed, if_neg hle]
      rw [hres]
      have hne : (flushed Unit consumed 16384 pending).produced ≠ [] := by
        rw [flushed]
        intro hnil
        have := congrArg List.length hnil
        rw [length_take, length_nil] at this
        omega
      rw [if_neg fun h => hne h.1]
      have hrest := @ih (out ++ (flushed Unit consumed 16384 pending).produced)
        (pending.drop 16384) (pos + (flushed Unit consumed 16384 pending).consumed) 0
        (some (pending.drop 16384)) rfl (by rw [length_drop]; omega)
      rw [flushed, append_assoc, take_append_drop] at hrest
      exact hrest

end

/-- Two hundred bytes of the letter a. -/
def letters : List UInt8 := List.replicate 200 0x61

/-- What zlib makes of them. -/
def lettersStream : List UInt8 := [120, 218, 75, 76, 28, 30, 0, 0, 194, 127, 75, 201]

/-- They are sent compressed, and arrive. -/
theorem wire_codec_carries_letters :
    compressIfWorthwhile (tableFlate letters lettersStream) 1 letters 0 180 =
        some (some (header letters 0 ++ lettersStream)) ∧
      Carries (tableFlate letters lettersStream) letters (header letters 0 ++ lettersStream) := by
  have hsent : compressIfWorthwhile (tableFlate letters lettersStream) 1 letters 0 180 =
      some (some (header letters 0 ++ lettersStream)) := by
    decide +kernel
  refine ⟨hsent, ?_⟩
  have hlen : letters.length ≤ MAX_DECOMPRESSED_BYTES := by
    rw [letters, length_replicate]
    decide
  exact ((wire_codec_carries_iff (tableContract (by decide))).1 _ _ _ _ _ hsent).mpr hlen

/-- One byte more than the decoder allows. -/
def oversized : List UInt8 := List.replicate (MAX_DECOMPRESSED_BYTES + 1) 0x61

theorem length_oversized : oversized.length = MAX_DECOMPRESSED_BYTES + 1 :=
  length_replicate

/-- Whatever zlib makes of a text above the cap, if it is short enough the frame is sent, and
the decoder refuses it. -/
theorem wire_codec_refuses_oversized : oversized.length = MAX_DECOMPRESSED_BYTES + 1 ∧
      ∀ stream : List UInt8, stream.head? = some 0x78 → stream.length < 2 ^ 20 →
        Nonempty (tableFlate oversized stream).Contract ∧ ∃ fuel frame,
          compressIfWorthwhile (tableFlate oversized stream) fuel oversized WIRE_DICT_PROTO_V1 180 =
            some (some frame) ∧
          ∀ fuel, decompress (tableFlate oversized stream) fuel frame =
            some (.error (.exceedsCap (MAX_DECOMPRESSED_BYTES + 1))) := by
  refine ⟨length_oversized, ?_⟩
  intro stream hhead hshort
  refine ⟨⟨tableContract (by rw [hhead]; decide)⟩, ?_⟩
  have hmax : MAX_DECOMPRESSED_BYTES = 33554432 := rfl
  have hdeflate : tableDeflate oversized stream oversized = stream := if_pos rfl
  have hloop : compressLoop (tableFlate oversized stream) oversized (stream.length + 1) none 0 [] =
      some (.ok stream) := by
    have hcall : (tableFlate oversized stream).compress none (oversized.drop 0) 16384 =
        flushed Unit oversized.length 16384 stream :=
      congrArg (flushed Unit oversized.length 16384) hdeflate
    exact compressLoop_flushed hcall (Nat.lt_succ_self _)
  have hcompress : compress (tableFlate oversized stream) (stream.length + 1) oversized
      WIRE_DICT_PROTO_V1 = some (.ok (header oversized WIRE_DICT_PROTO_V1 ++ stream)) := by
    have : compress (tableFlate oversized stream) (stream.length + 1) oversized
        WIRE_DICT_PROTO_V1 = Option.map (fun r => r.map (header oversized WIRE_DICT_PROTO_V1 ++ ·))
          (compressLoop (tableFlate oversized stream) oversized (stream.length + 1) none 0 []) := rfl
    rw [this, hloop]
    rfl
  refine ⟨stream.length + 1, header oversized WIRE_DICT_PROTO_V1 ++ stream, ?_, ?_⟩
  · rw [compressIfWorthwhile, hcompress, length_oversized, if_neg (by omega), Option.map_some]
    dsimp only
    rw [if_pos]
    rw [length_append, length_header, HEADER_BYTES]
    omega
  · intro fuel
    rw [decompress, if_neg (by simp [isCompressed_frame])]
    rw [declaredLength_frame, length_oversized, hmax]
    rfl

end SpkEditor.WireCodec
