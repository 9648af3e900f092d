import AsyncLogStorage.Spec.PageNames
import AsyncLogStorage.Spec.Upload

/-!
# What a download does

A download of a file in the low directory reads it where it is. Any other one unpacks
the stored file to a file of the same name in the low directory, sends that and removes
it again.

## Key results

- `download_effect`: what a download changes
- `sendDownload_file`: what it replies when the file to send is there
-/

namespace Storage

open Path (Place)
open Service

/-! ## Steps on the files -/

theorem setContent_cases (fs : FileSystem) (path content : Bytes) (io : WriteOutcome) :
    (FileUtil.setContent fs path content io).2 = fs ∨
      (fs.creatable path = true ∧ ∃ written, (FileUtil.setContent fs path content io).2 =
        fs.store (resolve path) written io.time) := by
  rw [setContent_eq]
  split
  · rename_i h
    exact .inr ⟨h.1, _, rfl⟩
  · exact .inl rfl

theorem creatable_createDirectory {fs fs' : FileSystem} {dir path : Bytes} {throws : Bool}
    (h : FileUtil.createDirectory fs dir throws = some fs')
    (hway : resolve path ∉ withAncestors (resolve dir)) (hpath : fs.creatable path = true) :
    fs'.creatable path = true := by
  obtain ⟨-, rfl⟩ | hmkdirs := createDirectory_cases h
  · exact hpath
  · exact FileSystem.creatable_mkdirs hmkdirs hway hpath

/-- `UnCompress` fails before it touches a file, or it writes what `unpack` makes of the bytes
    that were read. -/
theorem unCompress_cases {z : Zstd} {fs fs' : FileSystem} {path target : Bytes} {statOk ok : Bool}
    {read : ReadOutcome} {io : WriteOutcome}
    (h : FileUtil.unCompress z fs path target statOk read io = some (ok, fs')) :
    (ok = false ∧ fs' = fs) ∨
    (ok = true ∧ fs.creatable target = true ∧ io.opens = true ∧
      ∃ body unpacked, FileUtil.getContent fs path [] statOk read = some (true, body) ∧
        ZstdWrapper.unpack z body = some unpacked ∧
        fs' = fs.store (resolve target) (unpacked.take io.written) io.time) := by
  unfold FileUtil.unCompress at h
  split at h
  · cases h
  · cases h
    exact .inl ⟨rfl, rfl⟩
  · rename_i body hread
    obtain ⟨unpacked, hunpack, hset⟩ := Option.map_eq_some_iff.mp h
    rw [setContent_eq] at hset
    split at hset
    · rename_i hopens
      cases hset
      exact .inr ⟨rfl, hopens.1, hopens.2, body, unpacked, hread, hunpack, rfl⟩
    · cases hset
      exact .inl ⟨rfl, rfl⟩

/-- The file that `Download` unpacks to. -/
def transitPath (cfg : Config) (info : StorageInfo) : Bytes :=
  cfg.lowStorageDir ++ FileUtil.fileName info.storage_path_

section
variable {cfg : Config} {z : Zstd} {io : DownloadIo} {s : Server} {req : Request}

/-- Preparing a download either takes the stored file as it is, if that is in the low
    directory, or makes sure of the low directory and runs `UnCompress`. -/
theorem prepareDownload_eq_some {fs fs' : FileSystem} {info : StorageInfo} {path : Bytes} :
    prepareDownload cfg z fs info io = (fs', some path) ↔
      (info.storage_path_.contains cfg.lowStorageDir = true ∧ fs' = fs ∧
        path = info.storage_path_) ∨
      (info.storage_path_.contains cfg.lowStorageDir = false ∧ path = transitPath cfg info ∧
        ∃ fs₁ ok, FileUtil.createDirectory fs cfg.lowStorageDir io.mkdirThrows = some fs₁ ∧
          FileUtil.unCompress z fs₁ info.storage_path_ path io.statOk io.read io.store =
            some (ok, fs')) := by
  unfold prepareDownload
  cases info.storage_path_.contains cfg.lowStorageDir with
  | true => simp [eq_comm]
  | false =>
    -- the way through the low directory
    simp only [Bool.false_eq_true, ↓reduceIte, false_and, true_and, false_or]
    cases FileUtil.createDirectory fs cfg.lowStorageDir io.mkdirThrows with
    | none => simp
    | some fs₁ =>
      rw [← transitPath]
      cases hunpack : FileUtil.unCompress z fs₁ info.storage_path_ (transitPath cfg info) io.statOk
          io.read io.store with
      | none =>
        constructor
        · intro h
          simp [hunpack] at h
        · rintro ⟨rfl, fs₂, ok, hfs, h⟩
          cases hfs
          simp [hunpack] at h
      | some result =>
        obtain ⟨ok, fs₂⟩ := result
        simp only [hunpack, Prod.mk.injEq, Option.some.injEq]
        constructor
        · rintro ⟨rfl, rfl⟩
          exact ⟨rfl, fs₁, ok, rfl, hunpack⟩
        · rintro ⟨rfl, fs₁', ok', rfl, h⟩
          rw [hunpack] at h
          cases h
          exact ⟨rfl, rfl⟩

/-- What preparing a download does to the files: it may create the low directory and write
    the transit file, unless the file is in the low directory. -/
theorem prepareDownload_effect {fs fs' : FileSystem} {info : StorageInfo} {path : Bytes}
    (h : prepareDownload cfg z fs info io = (fs', some path)) :
    (info.storage_path_.contains cfg.lowStorageDir = true ∧ fs' = fs ∧
      path = info.storage_path_) ∨
    (info.storage_path_.contains cfg.lowStorageDir = false ∧ path = transitPath cfg info ∧
      ∃ fs₁, FileUtil.createDirectory fs cfg.lowStorageDir io.mkdirThrows = some fs₁ ∧
        (fs' = fs₁ ∨ (fs₁.creatable path = true ∧
          ∃ written, fs' = fs₁.store (resolve path) written io.store.time))) := by
  obtain hdirect | ⟨hlow, hpath, fs₁, ok, hdir, hunpack⟩ := prepareDownload_eq_some.mp h
  · exact .inl hdirect
  · right
    refine ⟨hlow, hpath, fs₁, hdir, ?_⟩
    obtain ⟨-, hsame⟩ | ⟨-, hcreatable, -, -, unpacked, -, -, hstored⟩ := unCompress_cases hunpack
    · exact .inl hsame
    · exact .inr ⟨hcreatable, _, hstored⟩

/-- What sending does to the files: it may remove the file that was sent, if that is not
    the stored one. -/
theorem sendDownload_effect (fs : FileSystem) (table : Table) (info : StorageInfo) (path : Bytes)
    (req : Request) (io : DownloadIo) :
    (sendDownload fs table info path req io).server.table = table ∧
    ((sendDownload fs table info path req io).server.fs = fs ∨
      (path ≠ info.storage_path_ ∧
        (sendDownload fs table info path req io).server.fs = fs.remove path)) := by
  unfold sendDownload
  split
  -- there is no file, or it does not open
  · exact ⟨rfl, .inl rfl⟩
  · split
    · exact ⟨rfl, .inl rfl⟩
    · refine ⟨rfl, ?_⟩
      by_cases hremove : path ≠ info.storage_path_ ∧ io.removes = true
      · right
        refine ⟨hremove.1, ?_⟩
        simp only [if_pos hremove]
      · left
        simp only [if_neg hremove]

/-- The record that a download works on: that of the decoded path, or an empty one. -/
def downloadInfo (io : DownloadIo) (s : Server) (path : Bytes) : StorageInfo :=
  (DataManager.getOneByURL s.table path
    { mtime_ := io.uninit.1, atime_ := io.uninit.2.1, fsize_ := io.uninit.2.2,
      storage_path_ := [], url_ := [] }).2

theorem downloadInfo_cases (io : DownloadIo) (s : Server) (path : Bytes) :
    s.table.lookup path = some (downloadInfo io s path) ∨
      (downloadInfo io s path).storage_path_ = [] := by
  -- a url that is not in the table leaves the constructed record
  unfold downloadInfo DataManager.getOneByURL
  split
  · rename_i found hfound
    exact .inl hfound
  · exact .inr rfl

variable (cfg z io s req) in
/-- A download replies to nothing, or it has a file to send. -/
theorem download_cases :
    (download cfg z io s req).replies = [] ∨
    ∃ path fs target, urlDecode req.path = some path ∧
      prepareDownload cfg z s.fs (downloadInfo io s path) io = (fs, some target) ∧
      io.existsThrows = false ∧
      download cfg z io s req = sendDownload fs s.table (downloadInfo io s path) target req io := by
  unfold download
  cases urlDecode req.path with
  | none => exact .inl rfl
  | some path =>
    simp only
    rw [← downloadInfo]
    split
    -- an exception on the way
    · exact .inl rfl
    · rename_i fs target hprepare
      cases io.existsThrows with
      | true => exact .inl rfl
      | false => exact .inr ⟨path, fs, target, rfl, hprepare, rfl, rfl⟩

theorem download_eq_sendDownload {path target : Bytes} {fs : FileSystem}
    (hpath : urlDecode req.path = some path)
    (hprepare : prepareDownload cfg z s.fs (downloadInfo io s path) io = (fs, some target))
    (hexists : io.existsThrows = false) :
    download cfg z io s req = sendDownload fs s.table (downloadInfo io s path) target req io := by
  unfold download
  simp only [hpath]
  rw [← downloadInfo]
  simp only [hprepare, hexists, Bool.false_eq_true, ↓reduceIte]

/-- A download leaves the table. The files stay too if the stored file is in the low
    directory; otherwise nothing but the low directory and the transit file changes. -/
theorem download_effect (h : (download cfg z io s req).exit = .returned) :
    (download cfg z io s req).server.table = s.table ∧
    ∃ path, urlDecode req.path = some path ∧
      let info := downloadInfo io s path
      ((download cfg z io s req).server.fs = s.fs ∨
        (info.storage_path_.contains cfg.lowStorageDir = false ∧
          ∃ fs₁ fs₂, FileUtil.createDirectory s.fs cfg.lowStorageDir io.mkdirThrows = some fs₁ ∧
            (fs₂ = fs₁ ∨ (fs₁.creatable (transitPath cfg info) = true ∧
              ∃ written, fs₂ = fs₁.store (resolve (transitPath cfg info)) written
                io.store.time)) ∧
            ((download cfg z io s req).server.fs = fs₂ ∨
              (download cfg z io s req).server.fs = fs₂.remove (transitPath cfg info)))) := by
  unfold download at h ⊢
  cases hpath : urlDecode req.path with
  | none => simp [hpath] at h
  | some path =>
    simp only [hpath] at h ⊢
    generalize hprepare : prepareDownload cfg z s.fs (DataManager.getOneByURL s.table path
      { mtime_ := io.uninit.1, atime_ := io.uninit.2.1, fsize_ := io.uninit.2.2,
        storage_path_ := [], url_ := [] }).2 io = prepared at h ⊢
    obtain ⟨fs₂, target⟩ := prepared
    cases target with
    -- an exception on the way
    | none => exact nomatch h
    | some target =>
      simp only at h ⊢
      split at h
      · exact nomatch h
      · rename_i hexists
        simp only [hexists, Bool.false_eq_true, ↓reduceIte]
        have hsend := sendDownload_effect fs₂ s.table (downloadInfo io s path) target req io
        refine ⟨hsend.1, path, rfl, ?_⟩
        obtain ⟨hlow, rfl, rfl⟩ | ⟨hlow, rfl, fs₁, hdir, hfs₂⟩ := prepareDownload_effect hprepare
        · -- the stored file itself was sent, so it is not removed
          left
          obtain hsame | ⟨hne, -⟩ := hsend.2
          · exact hsame
          · exact absurd rfl hne
        · -- the transit file was sent, and may be gone
          right
          refine ⟨hlow, fs₁, fs₂, hdir, hfs₂, ?_⟩
          obtain hsame | ⟨-, hremoved⟩ := hsend.2
          · exact .inl hsame
          · exact .inr hremoved

/-- What of a node goes out with a reply; nothing of a directory can be added. -/
def sentBody (adds : Bool) : Node → Bytes
  | .file f => if adds then f.content else []
  | .directory => []

variable (req) in
theorem sendDownload_sent {fs : FileSystem} (table : Table) (info : StorageInfo) {path : Bytes}
    {node : Node} (hfind : fs.find path = some node) (hopens : io.opens = true) :
    ∃ r, (sendDownload fs table info path req io).replies = [r] ∧ (r.code = 200 ∨ r.code = 206) ∧
      r.body = sentBody io.adds node := by
  unfold sendDownload
  simp only [hfind, hopens, Bool.not_true, Bool.false_eq_true, ↓reduceIte, List.cons.injEq,
    and_true, exists_eq_left']
  split
  · exact ⟨.inr rfl, by cases node <;> rfl⟩
  · exact ⟨.inl rfl, by cases node <;> rfl⟩

theorem sendDownload_replies_ne_nil {fs : FileSystem} {table : Table} {info : StorageInfo}
    {path : Bytes} : (sendDownload fs table info path req io).replies ≠ [] := by
  unfold sendDownload
  cases fs.find path with
  | none => simp
  | some node => cases io.opens <;> simp

/-- A file that is missing or does not open is replied to with errors. -/
theorem sendDownload_error {fs : FileSystem} {table : Table} {info : StorageInfo} {path : Bytes}
    (h : fs.find path = none ∨ io.opens = false) :
    ∀ r ∈ (sendDownload fs table info path req io).replies, 400 ≤ r.code := by
  have hmissing : ∀ r ∈ missingReplies info, 400 ≤ r.code := by
    unfold missingReplies
    split
    · simp [plainReply]
    · split <;> simp [reply]
  unfold sendDownload
  cases hfind : fs.find path with
  | none =>
    intro r hr
    obtain hr | hr := List.mem_append.mp hr
    · exact hmissing r hr
    · rw [List.mem_singleton.mp hr]
      show 400 ≤ 404
      omega
  | some node =>
    have hopens : io.opens = false := by simpa [hfind] using h
    simp [hopens]

/-- What is replied when the file to send is there and can be read. -/
theorem sendDownload_file {fs : FileSystem} {table : Table} {info : StorageInfo} {path : Bytes}
    {f : File} (hfile : FileUtil.fileAt fs path = some f) (hopens : io.opens = true)
    (hadds : io.adds = true) (hrange : req.ifRange = none) :
    (sendDownload fs table info path req io).replies =
      [{ reply 200 "Success" with body := f.content }] := by
  have hfind : fs.find path = some (.file f) :=
    FileSystem.find_eq_file.mpr (FileSystem.fileAt_eq_some.mp hfile)
  simp [sendDownload, hfind, hopens, hadds, hrange]

end

/-- A download of `/download/a` at which all goes well. -/
def smallDownload : Request where
  path := Config.shipped.downloadPrefix ++ Bytes.ofString "%61"
  body := none
  fileName := none
  storageType := none
  ifRange := none

theorem urlDecode_smallDownload : urlDecode smallDownload.path =
    some (Config.shipped.downloadPrefix ++ Bytes.ofString "a") := by decide

def wholeDownload : DownloadIo where
  mkdirThrows := false
  statOk := true
  read := { opens := true, delivered := FileUtil.stringMaxSize }
  store := { opens := true, written := FileUtil.stringMaxSize, time := 200 }
  existsThrows := false
  opens := true
  error := []
  adds := true
  removes := true
  uninit := (0, 0, 0)

/-- The record of a file `a` in the deep directory. -/
def deepInfo : StorageInfo where
  mtime_ := 100
  atime_ := 100
  fsize_ := 11
  storage_path_ := Config.shipped.deepStorageDir ++ Bytes.ofString "a"
  url_ := Config.shipped.downloadPrefix ++ Bytes.ofString "a"

/-- A server that knows of that file only. -/
def deepServer (fs : FileSystem) : Server where
  fs := fs
  table := Table.empty.insert deepInfo

end Storage
