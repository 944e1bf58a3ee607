import SpkEditor.Lib.Utf8

/-!
# Uploads

Attachments arrive in chunks, each in a binary frame that says which upload it belongs
to and where in it. An upload has a file of its own until a message is sent that refers
to it; then its bytes take the place of the reference.

The files are part of the state here, as `Store`. The crates for base64 and SHA-256 are
parameters (`Crates`), and so is what else a content block holds.
-/

namespace SpkEditor

abbrev UploadId := Nat

def U64_MAX : Nat := 2 ^ 64 - 1

/-- The largest offset of a file: `lseek` takes an `i64`. -/
def I64_MAX : Nat := 2 ^ 63 - 1

def MAX_CONCURRENT_PER_SESSION : Nat := 4

/-- `tmp_root.join(format!("{id}.bin"))`. -/
structure TmpPath where
  root : List Char
  id : UploadId
  deriving DecidableEq

structure UploadState where
  id : UploadId
  sessionId : List Char
  mime : List Char
  displayName : List Char
  expectedSize : Nat
  tmpPath : TmpPath
  receivedBytes : Nat
  /-- An `Instant`. -/
  createdAt : Nat
  sha256 : Option (List Char)

structure UploadHandle where
  id : UploadId
  tmpPath : TmpPath
  mime : List Char
  displayName : List Char
  deriving DecidableEq

structure ChunkAck where
  uploadId : UploadId
  receivedBytes : Nat

structure UploadManager where
  state : List UploadState
  nextId : UploadId
  tmpRoot : List Char
  ackQueue : List ChunkAck

/-- The manager and the files it works with. -/
structure Store where
  manager : UploadManager
  files : TmpPath → Option (List UInt8)

inductive ParseIntError where
  | empty
  | invalidDigit
  | posOverflow
  deriving DecidableEq

/-- What a call can fail with; each carries what its message says. -/
inductive UploadError where
  /-- `upload_init: session_id is required` -/
  | sessionIdRequired
  /-- `upload_init: session .. already has .. concurrent uploads` -/
  | tooManyUploads (sessionId : List Char)
  /-- `write_chunk: unknown upload_id ..` -/
  | writeUnknown (id : UploadId)
  /-- `write_chunk: out-of-order chunk for upload .. — got offset .., expected ..` -/
  | outOfOrder (id offset expected : Nat)
  /-- `write_chunk: upload .. overrun — total .. > expected ..` -/
  | overrun (id total expected : Nat)
  /-- A file operation failed. -/
  | io (path : TmpPath)
  /-- `finish: unknown upload_id ..` -/
  | finishUnknown (id : UploadId)
  /-- `finish: upload .. incomplete — received .. of .. bytes` -/
  | incomplete (id received expected : Nat)
  /-- `finish: upload .. sha256 mismatch — expected .., computed ..` -/
  | shaMismatch (id : UploadId) (want actual : List Char)
  /-- `abort: unknown upload_id ..` -/
  | abortUnknown (id : UploadId)
  /-- `frame too short (.. < 16)` -/
  | frameTooShort (len : Nat)
  /-- `invalid upload handle ..` -/
  | invalidHandle (uri : List Char) (err : ParseIntError)
  /-- `unknown_upload_id: id=..` -/
  | unknownUploadId (id : UploadId)
  /-- `upload_not_finished: id=.. received ../..` -/
  | notFinished (id received expected : Nat)
  /-- `upload .. marked text but not valid UTF-8` -/
  | notUtf8 (id : UploadId)
  /-- `unsupported_mime: .. (upload_id=..)` -/
  | unsupportedMime (mime : List Char) (id : UploadId)
  deriving DecidableEq

/-- `seek` to an offset and `write_all` there. -/
def writeAt (content : List UInt8) (offset : Nat) (data : List UInt8) : Option (List UInt8) :=
  if offset + data.length ≤ I64_MAX then
    some (content.take offset ++ List.replicate (offset - content.length) 0 ++ data ++
      content.drop (offset + data.length))
  else none

def Store.setFile (s : Store) (path : TmpPath) (content : Option (List UInt8)) : Store :=
  { s with files := fun p => if p = path then content else s.files p }

/-! ## The manager -/

namespace UploadManager

/-- `HashMap::get`. -/
def get (m : UploadManager) (id : UploadId) : Option UploadState := m.state.find? fun u => u.id == id

/-- `HashMap::remove`. -/
def remove (m : UploadManager) (id : UploadId) : UploadManager :=
  { m with state := m.state.filter fun u => u.id != id }

/-- `HashMap::insert`. -/
def insert (m : UploadManager) (u : UploadState) : UploadManager :=
  { m with state := m.state.filter (fun v => v.id != u.id) ++ [u] }

/-- A chunk was written: the entry knows, and an ack is queued. -/
def received (m : UploadManager) (id : UploadId) (newTotal : Nat) : UploadManager :=
  { m with
    state := m.state.map fun u : UploadState => if u.id = id then { u with receivedBytes := newTotal } else u
    ackQueue := m.ackQueue ++ [⟨id, newTotal⟩] }

end UploadManager

/-- `UploadManager::new`; `seed` is the time in seconds. -/
def Store.new (tmpRoot : List Char) (seed : UInt64) (files : TmpPath → Option (List UInt8)) : Store :=
  ⟨⟨[], max seed.toNat 1, tmpRoot, []⟩, files⟩

namespace Store

/-- `init`. -/
def init (s : Store) (sessionId mime displayName : List Char) (totalSize : Nat)
    (sha256 : Option (List Char)) (now : Nat) : Store × Except UploadError UploadId :=
  if sessionId = [] then (s, .error .sessionIdRequired)
  else
    let activeForSession := (s.manager.state.filter fun u => u.sessionId == sessionId).length
    if MAX_CONCURRENT_PER_SESSION ≤ activeForSession then (s, .error (.tooManyUploads sessionId))
    else
      let id := s.manager.nextId
      let tmpPath : TmpPath := ⟨s.manager.tmpRoot, id⟩
      let s := { s with manager := { s.manager with nextId := (id + 1) % 2 ^ 64 } }
      let s := s.setFile tmpPath (some [])
      ({ s with
        manager := s.manager.insert
          { id, sessionId, mime, displayName, expectedSize := totalSize, tmpPath, receivedBytes := 0,
            createdAt := now, sha256 } }, .ok id)

/-- `write_chunk`. -/
def writeChunk (s : Store) (id : UploadId) (offset : Nat) (data : List UInt8) :
    Store × Except UploadError Nat :=
  match s.manager.get id with
  | none => (s, .error (.writeUnknown id))
  | some entry =>
    if offset ≠ entry.receivedBytes then (s, .error (.outOfOrder id offset entry.receivedBytes))
    else
      let newTotal := min (entry.receivedBytes + data.length) U64_MAX
      if entry.expectedSize < newTotal then (s, .error (.overrun id newTotal entry.expectedSize))
      else
        match (s.files entry.tmpPath).bind fun content => writeAt content offset data with
        | none => (s, .error (.io entry.tmpPath))
        | some content =>
          let s := s.setFile entry.tmpPath (some content)
          ({ s with manager := s.manager.received id newTotal }, .ok newTotal)

/-- An entry goes, and its file with it. -/
def drop (s : Store) (entry : UploadState) : Store :=
  ({ s with manager := s.manager.remove entry.id }).setFile entry.tmpPath none

/-- `abort`. -/
def abort (s : Store) (id : UploadId) : Store × Except UploadError Unit :=
  match s.manager.get id with
  | none => (s, .error (.abortUnknown id))
  | some entry => (s.drop entry, .ok ())

/-- `gc`, with the number of uploads it removes. -/
def gc (s : Store) (now ttl : Nat) : Store × Nat :=
  let expired := s.manager.state.filter fun u => ttl < now - u.createdAt
  (expired.foldl drop s, expired.length)

end Store

/-- `u64::from_be_bytes`. -/
def fromBeBytes (bytes : List UInt8) : Nat := bytes.foldl (fun n b => n * 256 + b.toNat) 0

/-- `dispatch_binary_frame`. -/
def Store.dispatchBinaryFrame (s : Store) (bytes : List UInt8) : Store × Except UploadError Unit :=
  if bytes.length < 16 then (s, .error (.frameTooShort bytes.length))
  else
    let uploadId := fromBeBytes (bytes.take 8)
    let offset := fromBeBytes ((bytes.drop 8).take 8)
    let payload := bytes.drop 16
    match s.writeChunk uploadId offset payload with
    | (s, .ok _) => (s, .ok ())
    | (s, .error err) => (s, .error err)

/-! ## Finishing -/

def HEX : List Char := ['0', '1', '2', '3', '4', '5', '6', '7', '8', '9', 'a', 'b', 'c', 'd', 'e', 'f']

/-- `hex_encode`. -/
def hexEncode (bytes : List UInt8) : List Char :=
  bytes.flatMap fun b => [HEX.getD (b.toNat / 16) '0', HEX.getD (b.toNat % 16) '0']

/-- `eq_ignore_ascii_case`. -/
def eqIgnoreAsciiCase (a b : List Char) : Bool := a.map Char.toLower == b.map Char.toLower

/-- The crates that are called: `sha2` and `base64`. -/
structure Crates where
  sha256 : List UInt8 → List UInt8
  encode : List UInt8 → List Char

/-- `finish`. -/
def Store.finish (s : Store) (crates : Crates) (id : UploadId) (expectedSha256 : Option (List Char)) :
    Except UploadError UploadHandle :=
  match s.manager.get id with
  | none => .error (.finishUnknown id)
  | some entry =>
    if entry.receivedBytes ≠ entry.expectedSize then
      .error (.incomplete id entry.receivedBytes entry.expectedSize)
    else
      let handle : UploadHandle := ⟨entry.id, entry.tmpPath, entry.mime, entry.displayName⟩
      match expectedSha256.or entry.sha256 with
      | none => .ok handle
      | some want =>
        match s.files entry.tmpPath with
        | none => .error (.io entry.tmpPath)
        | some content =>
          let actual := hexEncode (crates.sha256 content)
          if eqIgnoreAsciiCase want actual then .ok handle
          else .error (.shaMismatch id want actual)

/-! ## Resolving handles -/

inductive ContentBlock (M X : Type) where
  | text (text : List Char) (details : M)
  | image (data mime : List Char) (details : M)
  | resourceLink (uri : List Char) (details : M) (fields : X)
  | other (fields : X)

def HANDLE_SCHEME : List Char := ['s', 'p', 'k', '-', 'u', 'p', 'l', 'o', 'a', 'd', ':', '/', '/']

/-- The digits of a number, read from the left. -/
def parseDigits : Nat → List Char → Except ParseIntError Nat
  | n, [] => .ok n
  | n, c :: cs =>
    if c.isDigit then
      let n := n * 10 + (c.toNat - '0'.toNat)
      if U64_MAX < n then .error .posOverflow else parseDigits n cs
    else .error .invalidDigit

/-- `str::parse::<u64>`. -/
def parseU64 : List Char → Except ParseIntError Nat
  | [] => .error .empty
  | ['+'] => .error .invalidDigit
  | '+' :: cs => parseDigits 0 cs
  | cs => parseDigits 0 cs

def imageMimes : List Char := ['i', 'm', 'a', 'g', 'e', '/']

/-- `is_text_like`. -/
def isTextLike (mime : List Char) : Bool :=
  "text/".toList.isPrefixOf mime ||
    ["application/json", "application/xml", "application/x-yaml", "application/yaml",
      "application/javascript", "application/typescript", "application/sql",
      "application/x-sh"].any fun m => m.toList == mime

/-- `extension_from_mime`. -/
def extensionFromMime (mime : List Char) : List Char :=
  let table : List (String × String) :=
    [("text/plain", ""), ("text/markdown", "markdown"), ("text/html", "html"), ("text/css", "css"),
      ("text/csv", "csv"), ("text/x-rust", "rust"), ("text/rust", "rust"), ("text/x-python", "python"),
      ("text/x-go", "go"), ("text/x-kotlin", "kotlin"), ("text/x-java", "java"), ("text/x-c", "c"),
      ("text/x-csrc", "c"), ("text/x-c++", "cpp"), ("text/x-c++src", "cpp"),
      ("text/x-script.shell", "bash"), ("application/json", "json"), ("application/xml", "xml"),
      ("text/xml", "xml"), ("application/x-yaml", "yaml"), ("application/yaml", "yaml"),
      ("text/yaml", "yaml"), ("text/x-yaml", "yaml"), ("application/javascript", "javascript"),
      ("text/javascript", "javascript"), ("application/typescript", "typescript"),
      ("application/sql", "sql"), ("application/x-sh", "bash")]
  match table.find? fun row => row.1.toList == mime with
  | some row => row.2.toList
  | none => []

def backtick : Char := Char.ofNat 96

/-- The longest run of backticks; `cur` is the length of the one that ends here. -/
def maxRun : Nat → Nat → List Char → Nat
  | best, _, [] => best
  | best, cur, c :: cs => if c = backtick then maxRun (max best (cur + 1)) (cur + 1) cs else maxRun best 0 cs

/-- `backtick_fence_for`. -/
def backtickFenceFor (text : List Char) : List Char :=
  List.replicate (max 4 (maxRun 0 0 text + 1)) backtick

def attachedFile (displayName mime text : List Char) : List Char :=
  let fence := backtickFenceFor text
  "Attached file ".toList ++ [backtick] ++ displayName ++ [backtick] ++ [':', '\n', '\n'] ++ fence ++
    extensionFromMime mime ++ ['\n'] ++ text ++ ['\n'] ++ fence

/-- The block that takes the place of a handle. -/
def inlined {M X : Type} (crates : Crates) (entry : UploadState) (bytes : List UInt8) (details : M) :
    Except UploadError (ContentBlock M X) :=
  if imageMimes.isPrefixOf entry.mime then .ok (.image (crates.encode bytes) entry.mime details)
  else if isTextLike entry.mime then
    match fromUtf8 bytes with
    | none => .error (.notUtf8 entry.id)
    | some text => .ok (.text (attachedFile entry.displayName entry.mime text) details)
  else .error (.unsupportedMime entry.mime entry.id)

namespace Store

variable {M X : Type}

def resolveHandle (s : Store) (crates : Crates) (uri : List Char) (details : M) :
    Except UploadError (ContentBlock M X × UploadId) :=
  match parseU64 (uri.drop HANDLE_SCHEME.length) with
  | .error err => .error (.invalidHandle uri err)
  | .ok id =>
  match s.manager.get id with
  | none => .error (.unknownUploadId id)
  | some entry =>
    if entry.receivedBytes ≠ entry.expectedSize then
      .error (.notFinished id entry.receivedBytes entry.expectedSize)
    else
      match s.files entry.tmpPath with
      | none => .error (.io entry.tmpPath)
      | some bytes => (inlined crates entry bytes details).map fun block => (block, id)

def resolveBlocks (s : Store) (crates : Crates) :
    List (ContentBlock M X) → Except UploadError (List (ContentBlock M X) × List UploadId)
  | [] => .ok ([], [])
  | .resourceLink uri details fields :: blocks =>
    if HANDLE_SCHEME.isPrefixOf uri then
      match s.resolveHandle crates uri details with
      | .error err => .error err
      | .ok (block, id) => (s.resolveBlocks crates blocks).map fun r => (block :: r.1, id :: r.2)
    else (s.resolveBlocks crates blocks).map fun r => (.resourceLink uri details fields :: r.1, r.2)
  | block :: blocks => (s.resolveBlocks crates blocks).map fun r => (block :: r.1, r.2)

/-- `resolve_upload_handles_with`. That an upload is gone already is no error. -/
def resolveUploadHandlesWith (s : Store) (crates : Crates) (blocks : List (ContentBlock M X)) :
    Store × Except UploadError (List (ContentBlock M X)) :=
  match s.resolveBlocks crates blocks with
  | .error err => (s, .error err)
  | .ok (out, consumed) => (consumed.foldl (fun s id => (s.abort id).1) s, .ok out)

end Store

inductive Call (M X : Type) where
  | init (sessionId mime displayName : List Char) (totalSize : Nat) (sha256 : Option (List Char)) (now : Nat)
  | frame (bytes : List UInt8)
  | finish (id : UploadId) (expectedSha256 : Option (List Char))
  | abort (id : UploadId)
  | gc (now ttl : Nat)
  | resolve (blocks : List (ContentBlock M X))

/-- What a call returns. -/
inductive Answer (M X : Type) where
  | started (id : UploadId)
  | written
  | finished (handle : UploadHandle)
  | aborted
  | collected (count : Nat)
  | resolved (blocks : List (ContentBlock M X))
  | failed (err : UploadError)

def Store.call {M X : Type} (s : Store) (crates : Crates) : Call M X → Store × Answer M X
  | .init sessionId mime displayName totalSize sha256 now =>
    match s.init sessionId mime displayName totalSize sha256 now with
    | (s, .ok id) => (s, .started id)
    | (s, .error err) => (s, .failed err)
  | .frame bytes =>
    match s.dispatchBinaryFrame bytes with
    | (s, .ok _) => (s, .written)
    | (s, .error err) => (s, .failed err)
  | .finish id expectedSha256 =>
    match s.finish crates id expectedSha256 with
    | .ok handle => (s, .finished handle)
    | .error err => (s, .failed err)
  | .abort id =>
    match s.abort id with
    | (s, .ok _) => (s, .aborted)
    | (s, .error err) => (s, .failed err)
  | .gc now ttl => ((s.gc now ttl).1, .collected (s.gc now ttl).2)
  | .resolve blocks =>
    match s.resolveUploadHandlesWith crates blocks with
    | (s, .ok blocks) => (s, .resolved blocks)
    | (s, .error err) => (s, .failed err)

/-- A call whose file operations succeed. -/
def Store.Step {M X : Type} (crates : Crates) (s : Store) (event : Call M X × Answer M X) (s' : Store) :
    Prop :=
  s.call crates event.1 = (s', event.2) ∧ ∀ path, event.2 ≠ .failed (.io path)

def startedIds {M X : Type} (events : List (Call M X × Answer M X)) : List UploadId :=
  events.filterMap fun
    | (_, .started id) => some id
    | _ => none

def accepted {M X : Type} (id : UploadId) (events : List (Call M X × Answer M X)) : List (List UInt8) :=
  events.filterMap fun
    | (.frame bytes, .written) => if fromBeBytes (bytes.take 8) = id then some (bytes.drop 16) else none
    | _ => none

end SpkEditor
