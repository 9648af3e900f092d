import AsyncLogStorage.Native.Service
import AsyncLogStorage.Spec.FileSystem

/-!
# What an upload does

An upload is accepted if its request is well formed, its directory is there and its file
opens. Then the file is written, a record of it is inserted and the reply is `200`,
whatever became of the write, of the calls of `stat` and of the storage file. In all
other cases an exception leaves the handler, or nothing but directories changes.

## Key results

- `upload_opened`: which path an upload opens
- `upload_of_accepted` / `upload_of_not_accepted`: its outcome in the two cases
-/

namespace Storage

open Path (Place)
open Service

/-! ## What is opened -/

theorem setContent_fst {fs : FileSystem} {path content : Bytes} {io : WriteOutcome} :
    (FileUtil.setContent fs path content io).1 = true ↔
      fs.creatable path = true ∧ io.opens = true := by
  unfold FileUtil.setContent
  split
  · rename_i h
    simpa using h
  · rename_i h
    simpa using h

/-- The uploaded file is written where the open succeeds, unless compression fails. -/
theorem storeUpload_fst {z : Zstd} {fs : FileSystem} {t : UploadTarget} {io : WriteOutcome} :
    (storeUpload z fs t io).1 = true ↔
      (t.path.contains (Bytes.ofString "low_storage") = true ∨
        ZstdWrapper.pack z t.content ≠ []) ∧
      fs.creatable t.path = true ∧ io.opens = true := by
  unfold storeUpload FileUtil.compress
  by_cases hlow : t.path.contains (Bytes.ofString "low_storage") = true
  · simp only [hlow, ↓reduceIte, setContent_fst, true_or, true_and]
  · -- `Compress` gives up on an empty frame, and is a `SetContent` otherwise
    simp only [hlow, Bool.false_eq_true, ↓reduceIte, List.length_eq_zero_iff, false_or]
    split
    · rename_i hnil
      simp [hnil]
    · rename_i hne
      simp only [setContent_fst, hne, ne_eq, not_false_eq_true, true_and]

/-- An upload opens the path of its target, once the directory is there and the content
    is packed. -/
theorem upload_opened {cfg : Config} {z : Zstd} {lib : JsonCpp} {io : UploadIo} {s : Server}
    {req : Request} {path : Bytes} :
    (upload cfg z lib io s req).opened = some path ↔
      ∃ t fs, uploadTarget cfg io req = .ok t ∧
        FileUtil.createDirectory s.fs t.dir io.mkdirThrows = some fs ∧
        storeThrows z t = false ∧ (storeUpload z fs t io.store).1 = true ∧ path = t.path := by
  unfold upload
  cases htarget : uploadTarget cfg io req with
  | error rejection => cases rejection <;> simp [Rejection.outcome]
  | ok t =>
    cases hdir : FileUtil.createDirectory s.fs t.dir io.mkdirThrows with
    | none => simp [hdir, Rejection.outcome]
    | some fs =>
      cases hthrows : storeThrows z t with
      | true => simp [hdir, hthrows, Rejection.outcome]
      | false =>
        cases hstore : storeUpload z fs t io.store with
        | mk ok fs' =>
          cases ok with
          -- the open failed or `pack` gave nothing
          | false => simp [hdir, hthrows, hstore]
          | true =>
            have hopened : (recordUpload cfg lib fs' s.table t io).opened = some t.path := by
              simp only [recordUpload]
              split <;> rfl
            simp only [hdir, hthrows, Bool.false_eq_true, ↓reduceIte, hstore, hopened,
              Option.some.injEq, Except.ok.injEq]
            constructor
            · rintro rfl
              exact ⟨t, fs, rfl, hdir, hthrows, by rw [hstore], rfl⟩
            · rintro ⟨t', fs'', ht, -, -, -, rfl⟩
              rw [ht]

/-- What the headers of a request say about its target. -/
theorem uploadTarget_ok {cfg : Config} {io : UploadIo} {req : Request} {t : UploadTarget} :
    uploadTarget cfg io req = .ok t ↔
      req.body = some t.content ∧ t.content ≠ [] ∧
      t.content.length ≤ FileUtil.stringMaxSize ∧ io.copies = true ∧
      (∃ header, req.fileName = some header ∧ Base64.base64Decode header = some t.fileName) ∧
      (∃ storageType, req.storageType = some storageType ∧
        storageDir cfg storageType = some t.dir) := by
  unfold uploadTarget
  obtain ⟨content, dir, fileName⟩ := t
  -- the checks in the order of the source: body, headers, storage type
  cases hbody : req.body with
  | none => simp
  | some body =>
    simp only [List.length_eq_zero_iff, Option.some.injEq]
    by_cases hnil : body = []
    · subst hnil
      simp only [↓reduceIte, reduceCtorEq, false_iff, not_and]
      intro h
      simp [← h]
    by_cases hsize : FileUtil.stringMaxSize < body.length
    · simp only [hnil, ↓reduceIte, hsize, reduceCtorEq, false_iff, not_and]
      rintro rfl _ hle
      omega
    by_cases hcopy : io.copies = true
    · simp only [hnil, ↓reduceIte, hsize, hcopy, Bool.not_true, Bool.false_eq_true]
      cases hfile : req.fileName with
      | none => simp
      | some header =>
        cases hdecode : Base64.base64Decode header with
        | none => simp [hdecode]
        | some name =>
          cases htype : req.storageType with
          | none => simp [hdecode]
          | some storageType =>
            cases hstorage : storageDir cfg storageType with
            | none => simp [hdecode, hstorage]
            | some d =>
              simp only [hdecode, hstorage, Except.ok.injEq, UploadTarget.mk.injEq,
                Option.some.injEq, exists_eq_left']
              constructor
              · rintro ⟨rfl, rfl, rfl⟩
                exact ⟨rfl, hnil, by omega, trivial, rfl, rfl⟩
              · rintro ⟨rfl, -, -, -, rfl, rfl⟩
                exact ⟨rfl, rfl, rfl⟩
    · simp [hnil, hsize, hcopy]

/-! ## What is stored -/

/-- A zstd whose frames are the content itself, which is never empty here. -/
def storedZstd : Zstd where
  compressBound := id
  compress := some
  frameContentSize := fun content => .known content.length
  decompress := fun capacity content => if content.length ≤ capacity then some content else none

theorem storedZstd_correct : storedZstd.Correct := by
  constructor
  · intro content frame h
    rw [← Option.some.inj h]
    rfl
  · -- a frame is decompressed into a buffer of its content's size
    intro content frame h
    rw [← Option.some.inj h]
    exact if_pos (Nat.le_refl _)
  · intro content frame hsize h
    rw [← Option.some.inj h]
    exact hsize
  · intro capacity frame content h
    obtain ⟨hle, hcontent⟩ := Option.ite_none_right_eq_some.mp h
    rw [← Option.some.inj hcontent]
    exact hle

/-- The frame that zstd makes of the two bytes `hi`. -/
def hiFrame : Bytes := [0x28, 0xb5, 0x2f, 0xfd, 0x20, 0x02, 0x11, 0x00, 0x00, 0x68, 0x69]

/-- A zstd that knows these two bytes and their frame. -/
def hiZstd : Zstd where
  compressBound := fun size => size + size / 256 + 64
  compress := fun content => if content = Bytes.ofString "hi" then some hiFrame else none
  frameContentSize := fun frame => if frame = hiFrame then .known 2 else .error
  decompress := fun capacity frame =>
    if frame = hiFrame ∧ 2 ≤ capacity then some (Bytes.ofString "hi") else none

theorem hiZstd_correct : hiZstd.Correct := by
  have hlength : (Bytes.ofString "hi").length = 2 := by decide
  have hframe : hiFrame.length ≤ FileUtil.stringMaxSize :=
    Nat.le_trans (by decide) FileUtil.le_stringMaxSize
  constructor
  · intro content frame h
    obtain ⟨rfl, hfound⟩ := Option.ite_none_right_eq_some.mp h
    rw [← Option.some.inj hfound, hlength]
    rfl
  · intro content frame h
    obtain ⟨rfl, hfound⟩ := Option.ite_none_right_eq_some.mp h
    rw [← Option.some.inj hfound]
    simp only [hiZstd, hlength, Nat.le_refl, and_self, ↓reduceIte]
  · intro content frame _ h
    obtain ⟨-, hfound⟩ := Option.ite_none_right_eq_some.mp h
    rw [← Option.some.inj hfound]
    exact hframe
  · intro capacity frame content h
    obtain ⟨⟨-, hle⟩, hcontent⟩ := Option.ite_none_right_eq_some.mp h
    rw [← Option.some.inj hcontent, hlength]
    exact hle

/-- The bytes that an upload writes: the content or, outside the low directory, its frame. -/
def storedBytes (z : Zstd) (t : UploadTarget) : Bytes :=
  if t.path.contains (Bytes.ofString "low_storage") then t.content
  else ZstdWrapper.pack z t.content

/-- What is stored fits into a `std::string` if every frame does. -/
theorem storedBytes_length_le {cfg : Config} {z : Zstd} {io : UploadIo} {req : Request}
    {t : UploadTarget}
    (hframe : ∀ content frame, content.length ≤ FileUtil.stringMaxSize →
      z.compress content = some frame → frame.length ≤ FileUtil.stringMaxSize)
    (h : uploadTarget cfg io req = .ok t) :
    (storedBytes z t).length ≤ FileUtil.stringMaxSize := by
  obtain ⟨-, hne, hsize, -⟩ := uploadTarget_ok.mp h
  unfold storedBytes
  split
  · exact hsize
  · -- `pack` gives a frame, or nothing where compression fails
    have hnonempty : t.content.isEmpty = false := by simpa using hne
    simp only [ZstdWrapper.pack, hnonempty, Bool.false_eq_true, ↓reduceIte]
    cases hcompress : z.compress t.content with
    | none => exact Nat.zero_le _
    | some frame => exact hframe t.content frame hsize hcompress

theorem setContent_eq (fs : FileSystem) (path content : Bytes) (io : WriteOutcome) :
    FileUtil.setContent fs path content io =
      if fs.creatable path = true ∧ io.opens = true then
        (true, fs.store (resolve path) (content.take io.written) io.time)
      else (false, fs) := by
  simp only [FileUtil.setContent, Bool.and_eq_true]

/-- An upload that compresses fails where `pack` gives nothing; otherwise it is a
    `SetContent` of the bytes to store. -/
theorem storeUpload_eq (z : Zstd) (fs : FileSystem) (t : UploadTarget) (io : WriteOutcome) :
    storeUpload z fs t io =
      if t.path.contains (Bytes.ofString "low_storage") = false ∧
          ZstdWrapper.pack z t.content = [] then (false, fs)
      else FileUtil.setContent fs t.path (storedBytes z t) io := by
  unfold storeUpload storedBytes FileUtil.compress
  cases hlow : t.path.contains (Bytes.ofString "low_storage") with
  | true => simp
  | false => simp

theorem storeUpload_snd {z : Zstd} {fs : FileSystem} {t : UploadTarget} {io : WriteOutcome}
    (h : (storeUpload z fs t io).1 = true) :
    (storeUpload z fs t io).2 =
      fs.store (resolve t.path) ((storedBytes z t).take io.written) io.time := by
  rw [storeUpload_eq] at h ⊢
  split at h
  · exact nomatch h
  · rename_i hpacked
    rw [if_neg hpacked, setContent_eq, if_pos (setContent_fst.mp h)]

theorem storeUpload_of_not {z : Zstd} {fs : FileSystem} {t : UploadTarget} {io : WriteOutcome}
    (h : (storeUpload z fs t io).1 = false) : (storeUpload z fs t io).2 = fs := by
  rw [storeUpload_eq] at h ⊢
  -- `pack` gave nothing, or the file did not open
  split at h
  · rename_i hpacked
    rw [if_pos hpacked]
  · rename_i hpacked
    have hnot : ¬(fs.creatable t.path = true ∧ io.opens = true) := by
      intro hopens
      rw [setContent_fst.mpr hopens] at h
      exact nomatch h
    rw [if_neg hpacked, setContent_eq, if_neg hnot]

/-- Making sure of a directory leaves the files. -/
theorem fileAt_createDirectory {fs fs' : FileSystem} {dir path : Bytes} {throws : Bool}
    (h : FileUtil.createDirectory fs dir throws = some fs') :
    FileUtil.fileAt fs' path = FileUtil.fileAt fs path := by
  obtain ⟨-, rfl⟩ | hmkdirs := createDirectory_cases h
  · rfl
  · exact FileSystem.fileAt_mkdirs hmkdirs

theorem atimeAfter_createDirectory {fs fs' : FileSystem} {dir : Bytes} {throws : Bool}
    (h : FileUtil.createDirectory fs dir throws = some fs') (place : Place Bytes) (time : Int) :
    fs'.atimeAfter place time = fs.atimeAfter place time := by
  obtain ⟨-, rfl⟩ | hmkdirs := createDirectory_cases h
  · rfl
  · obtain ⟨-, hlookup, -⟩ := FileSystem.mkdirs_spec hmkdirs
    unfold FileSystem.atimeAfter
    obtain hsame | ⟨hmem, hdir⟩ := hlookup place
    · rw [hsame]
    · -- the place is a directory now, and it was no file before
      simp only [hdir]
      split
      · rename_i f hfile
        exact absurd hfile (FileSystem.lookup_ne_file_of_mkdirs hmkdirs hmem)
      · rfl

/-! ## The record of a file -/

/-- What `NewStorageInfo` makes of a file, for the calls of `stat` that succeed. -/
def StorageInfo.recorded (cfg : Config) (path : Bytes) (f : File) (io : StatOutcome) :
    StorageInfo where
  mtime_ := if io.accessOk then f.atime else -1
  atime_ := if io.modifyOk then f.mtime else -1
  fsize_ := FileUtil.toSizeT (if io.sizeOk then f.content.length else -1)
  storage_path_ := path
  url_ := cfg.downloadPrefix ++ FileUtil.fileName path

theorem newStorageInfo_of_fileAt {cfg : Config} {fs : FileSystem} {path : Bytes} {f : File}
    {io : StatOutcome} (info : StorageInfo) (h : FileUtil.fileAt fs path = some f)
    (hexists : io.existsThrows = false) :
    StorageInfo.newStorageInfo cfg fs info path io = some (true, .recorded cfg path f io) := by
  have hfind : fs.find path = some (.file f) :=
    FileSystem.find_eq_file.mpr (FileSystem.fileAt_eq_some.mp h)
  simp only [StorageInfo.newStorageInfo, FileUtil.fileExists, hexists, Bool.false_eq_true,
    ↓reduceIte, hfind, Option.isSome_some, FileUtil.lastAccessTime, FileUtil.lastModifyTime,
    FileUtil.fileSize, h, StorageInfo.recorded]

/-! ## The outcome -/

/-- A request that is turned down is never answered with `200`. -/
theorem code_of_uploadTarget_error {cfg : Config} {io : UploadIo} {req : Request} {r : Reply}
    (h : uploadTarget cfg io req = .error (.replied r)) : r.code ≠ 200 := by
  unfold uploadTarget at h
  repeat' split at h
  all_goals cases h
  all_goals decide

/-- The file that an upload leaves before it records it. -/
def storedFile (z : Zstd) (fs : FileSystem) (t : UploadTarget) (io : WriteOutcome) : File where
  content := (storedBytes z t).take io.written
  mtime := io.time
  atime := fs.atimeAfter (resolve t.path) io.time

/-- The request is well formed, `fs` is what making sure of its directory leaves, `pack` does
    not throw, the file opens, and `fs::exists` does not throw for it afterwards. -/
structure Accepted (cfg : Config) (z : Zstd) (io : UploadIo) (s : Server) (req : Request)
    (t : UploadTarget) (fs : FileSystem) : Prop where
  target : uploadTarget cfg io req = .ok t
  directory : FileUtil.createDirectory s.fs t.dir io.mkdirThrows = some fs
  fits : storeThrows z t = false
  store : (storeUpload z fs t io.store).1 = true
  stat : io.stat.existsThrows = false

section
variable {cfg : Config} {z : Zstd} {lib : JsonCpp} {io : UploadIo} {s : Server} {req : Request}

/-- The file system after the write of an accepted upload. -/
def writtenFs (z : Zstd) (fs : FileSystem) (t : UploadTarget) (io : WriteOutcome) : FileSystem :=
  fs.store (resolve t.path) ((storedBytes z t).take io.written) io.time

theorem Accepted.fileAt {t : UploadTarget} {fs : FileSystem} (h : Accepted cfg z io s req t fs) :
    FileUtil.fileAt (writtenFs z fs t io.store) t.path = some (storedFile z s.fs t io.store) := by
  obtain ⟨-, hcreatable, -⟩ := storeUpload_fst.mp h.store
  rw [writtenFs, FileSystem.fileAt_store _ _ hcreatable,
    atimeAfter_createDirectory h.directory]
  rfl

theorem upload_of_accepted {t : UploadTarget} {fs : FileSystem}
    (h : Accepted cfg z io s req t fs) :
    let info := StorageInfo.recorded cfg t.path (storedFile z s.fs t io.store) io.stat
    upload cfg z lib io s req =
      { server :=
          ⟨(DataManager.storage cfg lib (writtenFs z fs t io.store) (s.table.insert info)
              io.order io.persist).2, s.table.insert info⟩
        replies := [reply 200 "Success"], exit := .returned, opened := some t.path } := by
  have hsnd := storeUpload_snd h.store
  have hstore : storeUpload z fs t io.store = (true, writtenFs z fs t io.store) :=
    Prod.ext h.store hsnd
  simp only [upload, h.target, h.directory, h.fits, Bool.false_eq_true, hstore, recordUpload,
    newStorageInfo_of_fileAt _ h.fileAt h.stat, DataManager.insert, ↓reduceIte]

variable (lib) in
/-- Otherwise it leaves by an exception, or changes nothing but directories and does not
    reply `200`. -/
theorem upload_of_not_accepted (h : ∀ t fs, ¬Accepted cfg z io s req t fs) :
    ((upload cfg z lib io s req).replies = [] ∧ (upload cfg z lib io s req).exit = .threw) ∨
    ((∀ r ∈ (upload cfg z lib io s req).replies, r.code ≠ 200) ∧
      (upload cfg z lib io s req).server.table = s.table ∧
      ((upload cfg z lib io s req).server.fs = s.fs ∨ ∃ t, uploadTarget cfg io req = .ok t ∧
        FileUtil.createDirectory s.fs t.dir io.mkdirThrows =
          some (upload cfg z lib io s req).server.fs)) := by
  unfold upload
  cases htarget : uploadTarget cfg io req with
  | error rejection =>
    -- the request is turned down before a file is touched
    cases rejection with
    | silent =>
      right
      exact ⟨fun r hr => (List.not_mem_nil hr).elim, rfl, .inl rfl⟩
    | threw => exact .inl ⟨rfl, rfl⟩
    | replied r =>
      right
      refine ⟨fun r' hr' => ?_, rfl, .inl rfl⟩
      rw [List.mem_singleton.mp hr']
      exact code_of_uploadTarget_error htarget
  | ok t =>
    simp only
    cases hdir : FileUtil.createDirectory s.fs t.dir io.mkdirThrows with
    -- the directory is a regular file, or the file system throws
    | none => exact .inl ⟨rfl, rfl⟩
    | some fs =>
      simp only
      cases hfits : storeThrows z t with
      | true => exact .inl ⟨rfl, rfl⟩
      | false =>
        simp only [Bool.false_eq_true, ↓reduceIte]
        cases hok : (storeUpload z fs t io.store).1 with
        | false =>
          -- `500`, with the directory made and no file written
          have hstore : storeUpload z fs t io.store = (false, fs) :=
            Prod.ext hok (storeUpload_of_not hok)
          right
          rw [hstore]
          refine ⟨fun r hr => ?_, rfl, .inr ⟨t, rfl, hdir⟩⟩
          rw [List.mem_singleton.mp hr]
          decide
        | true =>
          -- only `fs::exists` can have failed
          have hstore : storeUpload z fs t io.store = (true, writtenFs z fs t io.store) :=
            Prod.ext hok (storeUpload_snd hok)
          have hthrows : io.stat.existsThrows = true := by
            cases hstat : io.stat.existsThrows with
            | true => rfl
            | false => exact absurd ⟨htarget, hdir, hfits, hok, hstat⟩ (h t fs)
          left
          simp [hstore, recordUpload, StorageInfo.newStorageInfo, FileUtil.fileExists, hthrows]

end

/-! ## A small upload -/

/-- A JsonCpp whose writer always fails. -/
def silentJson : JsonCpp where
  write := fun _ => none
  parse := fun _ => (false, .null)
  realToString := fun _ => []

/-- The upload of the two bytes `hi` under the name `a`, into the low directory. -/
def smallUpload : Request where
  path := Bytes.ofString "/upload"
  body := some (Bytes.ofString "hi")
  fileName := some (Bytes.ofString "YQ==")
  storageType := some (Bytes.ofString "low")
  ifRange := none

/-- All goes well, at second 100, except that the file gets no more than `written` bytes. -/
def smallIo (written : Nat) : UploadIo where
  copies := true
  mkdirThrows := false
  store := { opens := true, written := written, time := 100 }
  stat := { existsThrows := false, accessOk := true, modifyOk := true, sizeOk := true }
  order := .held
  persist := { opens := true, written := 1000, time := 100 }
  uninit := (0, 0, 0)

def smallTarget : UploadTarget where
  content := Bytes.ofString "hi"
  dir := Config.shipped.lowStorageDir
  fileName := Bytes.ofString "a"

theorem uploadTarget_small (written : Nat) :
    uploadTarget Config.shipped (smallIo written) smallUpload = .ok smallTarget := rfl

end Storage
