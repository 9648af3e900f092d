import AsyncLogStorage.Native.Base64
import AsyncLogStorage.Native.DataManager
import AsyncLogStorage.Native.ZstdWrapper

/-!
# The request handlers

`UrlDecode` of `Util.hpp`, `FileUtil::Compress` and `FileUtil::UnCompress`, and the
handlers `Upload` and `Download` of `Service.hpp`. A handler run ends in an `Outcome`:
the replies it sent, the state it left and how it was left. `evhttp_find_header` gives
`none` for a header that is absent, and `std::string(nullptr)` throws. The log calls of the
handlers are left out: they are taken to return.
-/

namespace Storage

/-! ## UrlDecode -/

/-- `FromHex`, which takes every letter; `none` is the failed assertion. -/
def fromHex (x : UInt8) : Option Nat :=
  if 65 ≤ x ∧ x ≤ 90 then some (x.toNat - 65 + 10)
  else if 97 ≤ x ∧ x ≤ 122 then some (x.toNat - 97 + 10)
  else if 48 ≤ x ∧ x ≤ 57 then some (x.toNat - 48)
  else none

/-- `UrlDecode`; `none` is a failed assertion. -/
def urlDecode : Bytes → Option Bytes
  | [] => some []
  | c :: str =>
    if c = 37 then
      match str with
      | x :: y :: str => do
        let high ← fromHex x
        let low ← fromHex y
        let rest ← urlDecode str
        return UInt8.ofNat (high * 16 + low) :: rest
      | _ => none
    else
      (urlDecode str).map (c :: ·)

/-! ## Compressed files -/

namespace FileUtil

/-- `Compress`. -/
def compress (z : Zstd) (fs : FileSystem) (path content : Bytes) (io : WriteOutcome) :
    Bool × FileSystem :=
  let packed := ZstdWrapper.pack z content
  if packed.length = 0 then (false, fs) else setContent fs path packed io

/-- `UnCompress`. -/
def unCompress (z : Zstd) (fs : FileSystem) (path downloadPath : Bytes) (statOk : Bool)
    (read : ReadOutcome) (io : WriteOutcome) : Option (Bool × FileSystem) :=
  match getContent fs path [] statOk read with
  | none => none
  | some (false, _) => some (false, fs)
  | some (true, body) =>
    (ZstdWrapper.unpack z body).map fun unpacked => setContent fs downloadPath unpacked io

end FileUtil

/-! ## Requests and outcomes -/

structure Server where
  fs : FileSystem
  table : Table

/-- What the handlers read of a request. The body is `none` where
    `evhttp_request_get_input_buffer` gives a null pointer. -/
structure Request where
  path : Bytes
  body : Option Bytes
  fileName : Option Bytes
  storageType : Option Bytes
  ifRange : Option Bytes
deriving DecidableEq, Repr

/-- One call of `evhttp_send_reply`, with the body that goes out with it. -/
structure Reply where
  code : Nat
  reason : Option Bytes
  body : Bytes
deriving DecidableEq, Repr

inductive Exit where
  | returned
  /-- An exception left the handler. -/
  | threw
  /-- An assertion failed. -/
  | aborted
deriving DecidableEq, Repr

structure Outcome where
  server : Server
  replies : List Reply
  exit : Exit
  /-- The path at which the handler opened the uploaded file for writing. -/
  opened : Option Bytes

namespace Service

def reply (code : Nat) (reason : String) : Reply :=
  { code := code, reason := some (Bytes.ofString reason), body := [] }

/-- A reply with no reason of its own. -/
def plainReply (code : Nat) : Reply := { code := code, reason := none, body := [] }

/-! ## Upload -/

/-- How `Upload` ends before it touches a file. -/
inductive Rejection where
  | silent
  | replied (r : Reply)
  | threw
deriving DecidableEq, Repr

def Rejection.outcome (s : Server) : Rejection → Outcome
  | .silent => { server := s, replies := [], exit := .returned, opened := none }
  | .replied r => { server := s, replies := [r], exit := .returned, opened := none }
  | .threw => { server := s, replies := [], exit := .threw, opened := none }

/-- What an upload stores, and where. -/
structure UploadTarget where
  content : Bytes
  dir : Bytes
  fileName : Bytes
deriving DecidableEq, Repr

/-- `storage_path` once the file name is appended. -/
def UploadTarget.path (t : UploadTarget) : Bytes := t.dir ++ t.fileName

/-- The directory of a storage type. -/
def storageDir (cfg : Config) (storageType : Bytes) : Option Bytes :=
  if storageType = Bytes.ofString "low" then some cfg.lowStorageDir
  else if storageType = Bytes.ofString "deep" then some cfg.deepStorageDir
  else none

/-- There are two legal storage types. -/
theorem storageDir_cases {cfg : Config} {storageType dir : Bytes}
    (h : storageDir cfg storageType = some dir) :
    (storageType = Bytes.ofString "low" ∧ dir = cfg.lowStorageDir) ∨
      (storageType = Bytes.ofString "deep" ∧ dir = cfg.deepStorageDir) := by
  unfold storageDir at h
  split at h
  · rename_i htype
    exact .inl ⟨htype, (Option.some.inj h).symm⟩
  · split at h
    · rename_i htype
      exact .inr ⟨htype, (Option.some.inj h).symm⟩
    · cases h

/-- What an upload meets on its way. -/
structure UploadIo where
  /-- `evbuffer_copyout` succeeds. -/
  copies : Bool
  /-- `fs::exists` or `fs::create_directories` throws for the directory. -/
  mkdirThrows : Bool
  store : WriteOutcome
  stat : StatOutcome
  /-- The iteration over the table, and the write of the storage file. -/
  order : HashOrder
  persist : WriteOutcome
  /-- What the uninitialised members of `info` hold. -/
  uninit : Int × Int × Nat

/-- The part of `Upload` that reads the request. -/
def uploadTarget (cfg : Config) (io : UploadIo) (req : Request) :
    Except Rejection UploadTarget :=
  match req.body with
  | none => .error .silent
  | some content =>
    -- `std::string content(len, 0)` throws above `max_size`
    if content.length = 0 then .error (.replied (reply 400 "file empty"))
    else if FileUtil.stringMaxSize < content.length then .error .threw
    else if !io.copies then .error (.replied (plainReply 500))
    else match req.fileName with
      | none => .error .threw
      | some header => match Base64.base64Decode header with
        | none => .error .threw
        | some fileName => match req.storageType with
          | none => .error .threw
          | some storageType => match storageDir cfg storageType with
            | none => .error (.replied (reply 400 "Illegal storage type"))
            | some dir => .ok { content := content, dir := dir, fileName := fileName }

/-- The write of the uploaded file, raw or compressed as its path says. -/
def storeUpload (z : Zstd) (fs : FileSystem) (t : UploadTarget) (io : WriteOutcome) :
    Bool × FileSystem :=
  -- the search goes over the whole path, the name in it included
  if t.path.contains (Bytes.ofString "low_storage") then
    FileUtil.setContent fs t.path t.content io
  else
    FileUtil.compress z fs t.path t.content io

/-- `Compress` ends in the exception of `pack`. -/
def storeThrows (z : Zstd) (t : UploadTarget) : Bool :=
  !t.path.contains (Bytes.ofString "low_storage") && ZstdWrapper.packThrows z t.content

/-- The part of `Upload` that records the stored file and replies. -/
def recordUpload (cfg : Config) (lib : JsonCpp) (fs : FileSystem) (table : Table)
    (t : UploadTarget) (io : UploadIo) : Outcome :=
  let uninit : StorageInfo :=
    { mtime_ := io.uninit.1, atime_ := io.uninit.2.1, fsize_ := io.uninit.2.2,
      storage_path_ := [], url_ := [] }
  match StorageInfo.newStorageInfo cfg fs uninit t.path io.stat with
  | none =>
    { server := ⟨fs, table⟩, replies := [], exit := .threw, opened := some t.path }
  | some (_, info) =>
    -- neither the result of `NewStorageInfo` nor that of `Insert` is looked at
    let (_, table, fs) := DataManager.insert cfg lib fs table info true io.order io.persist
    { server := ⟨fs, table⟩, replies := [reply 200 "Success"], exit := .returned,
      opened := some t.path }

/-- `Upload`. -/
def upload (cfg : Config) (z : Zstd) (lib : JsonCpp) (io : UploadIo) (s : Server)
    (req : Request) : Outcome :=
  match uploadTarget cfg io req with
  | .error rejection => rejection.outcome s
  | .ok t =>
    match FileUtil.createDirectory s.fs t.dir io.mkdirThrows with
    | none => Rejection.threw.outcome s
    | some fs =>
      if storeThrows z t then Rejection.threw.outcome ⟨fs, s.table⟩
      else match storeUpload z fs t io.store with
      | (false, fs) =>
        { server := ⟨fs, s.table⟩, replies := [reply 500 "server error"], exit := .returned,
          opened := none }
      | (true, fs) => recordUpload cfg lib fs s.table t io

/-! ## Download -/

/-- What a download meets on its way. -/
structure DownloadIo where
  /-- `fs::exists` or `fs::create_directories` throws for the low directory. -/
  mkdirThrows : Bool
  /-- `stat` succeeds on the stored file, and its read and the write of what it unpacks to. -/
  statOk : Bool
  read : ReadOutcome
  store : WriteOutcome
  /-- `fs::exists` throws for the file to send. -/
  existsThrows : Bool
  opens : Bool
  /-- `strerror(errno)` if it does not open. -/
  error : Bytes
  /-- `evbuffer_add_file` succeeds. -/
  adds : Bool
  removes : Bool
  /-- What the uninitialised members of `info` hold. -/
  uninit : Int × Int × Nat

/-- `GetETag`. -/
def getETag (info : StorageInfo) : Bytes :=
  FileUtil.fileName info.storage_path_ ++ Bytes.ofString "-" ++
    Bytes.ofString (toString info.fsize_) ++ Bytes.ofString "-" ++
    Bytes.ofString (toString info.mtime_)

/-- The file to send: the stored file, or what `UnCompress` made of it in the low
    directory. The result of `UnCompress` is not looked at; no path is an exception. -/
def prepareDownload (cfg : Config) (z : Zstd) (fs : FileSystem) (info : StorageInfo)
    (io : DownloadIo) : FileSystem × Option Bytes :=
  if info.storage_path_.contains cfg.lowStorageDir then (fs, some info.storage_path_)
  else
    let downloadPath := cfg.lowStorageDir ++ FileUtil.fileName info.storage_path_
    match FileUtil.createDirectory fs cfg.lowStorageDir io.mkdirThrows with
    | none => (fs, none)
    | some fs =>
      match FileUtil.unCompress z fs info.storage_path_ downloadPath io.statOk io.read
          io.store with
      | none => (fs, none)
      | some (_, fs) => (fs, some downloadPath)

/-- The reply for a file that is missing, after which the handler goes on. -/
def missingReplies (info : StorageInfo) : List Reply :=
  if info.storage_path_.contains (Bytes.ofString "deep_storage") then [plainReply 500]
  else if !info.storage_path_.contains (Bytes.ofString "low_storage") then
    [reply 400 "file not exists"]
  else []

/-- The part of `Download` that sends the file at `downloadPath`. -/
def sendDownload (fs : FileSystem) (table : Table) (info : StorageInfo) (downloadPath : Bytes)
    (req : Request) (io : DownloadIo) : Outcome :=
  let outcome (fs : FileSystem) (replies : List Reply) : Outcome :=
    { server := ⟨fs, table⟩, replies := replies, exit := .returned, opened := none }
  let retrans := req.ifRange == some (getETag info)
  match fs.find downloadPath with
  | none =>
    outcome fs (missingReplies info ++
      [{ code := 404, reason := some (downloadPath ++ Bytes.ofString "not exists").cstr,
         body := [] }])
  | some node =>
    if !io.opens then
      outcome fs [{ code := 500, reason := some io.error, body := [] }]
    else
      -- a directory opens too, but nothing of it can be added
      let body := match node with
        | .file f => if io.adds then f.content else []
        | .directory => []
      let sent : Reply :=
        if retrans then
          { reply 206 "breakpoint continuous transmission" with body := body }
        else
          { reply 200 "Success" with body := body }
      outcome (if downloadPath ≠ info.storage_path_ ∧ io.removes then fs.remove downloadPath
        else fs) [sent]

/-- `Download`. -/
def download (cfg : Config) (z : Zstd) (io : DownloadIo) (s : Server) (req : Request) :
    Outcome :=
  match urlDecode req.path with
  | none => { server := s, replies := [], exit := .aborted, opened := none }
  | some resourcePath =>
    let uninit : StorageInfo :=
      { mtime_ := io.uninit.1, atime_ := io.uninit.2.1, fsize_ := io.uninit.2.2,
        storage_path_ := [], url_ := [] }
    -- a url that is not in the table leaves `info` as it was constructed
    let info := (DataManager.getOneByURL s.table resourcePath uninit).2
    match prepareDownload cfg z s.fs info io with
    | (fs, none) => { server := ⟨fs, s.table⟩, replies := [], exit := .threw, opened := none }
    | (fs, some downloadPath) =>
      if io.existsThrows then
        { server := ⟨fs, s.table⟩, replies := [], exit := .threw, opened := none }
      else
        sendDownload fs s.table info downloadPath req io

/-- The header `ETag` of the reply that sends a file; no other reply has one. It goes out as
    far as its first NUL. -/
def downloadETag (cfg : Config) (z : Zstd) (io : DownloadIo) (s : Server) (req : Request) :
    Option Bytes :=
  match urlDecode req.path with
  | none => none
  | some resourcePath =>
    let uninit : StorageInfo :=
      { mtime_ := io.uninit.1, atime_ := io.uninit.2.1, fsize_ := io.uninit.2.2,
        storage_path_ := [], url_ := [] }
    let info := (DataManager.getOneByURL s.table resourcePath uninit).2
    match prepareDownload cfg z s.fs info io with
    | (_, none) => none
    | (fs, some downloadPath) =>
      if !io.existsThrows && (fs.find downloadPath).isSome && io.opens then
        some (getETag info).cstr
      else
        none

/-! ## Requests one after the other -/

/-- A request for one of the two handlers, with what it meets. -/
inductive Event where
  | upload (io : UploadIo) (req : Request)
  | download (io : DownloadIo) (req : Request)

/-- The server has one thread and handles a request to its end. -/
def handle (cfg : Config) (z : Zstd) (lib : JsonCpp) (s : Server) : Event → Outcome
  | .upload io req => upload cfg z lib io s req
  | .download io req => download cfg z io s req

/-! ## The list page -/

/-- The storage type that `generateModernFileList` reads off the path of a file. -/
def listedStorageType (file : StorageInfo) : Bytes :=
  if file.storage_path_.contains (Bytes.ofString "deep") then Bytes.ofString "deep"
  else Bytes.ofString "low"

/-! ## GenHandler -/

/-- The handlers that `GenHandler` chooses from. -/
inductive Route where
  | download
  | upload
  | listShow
  | notFound
deriving DecidableEq, Repr

/-- The choice of `GenHandler`, from the decoded path. -/
def route (path : Bytes) : Route :=
  if path.contains (Bytes.ofString "/download/") then .download
  else if path = Bytes.ofString "/upload" then .upload
  else if path = Bytes.ofString "/" then .listShow
  else .notFound

end Service

end Storage
