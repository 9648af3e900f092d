import AsyncLogStorage.Spec.Undisturbed

/-!
# What a request leaves behind, however it ends

An exception that ends a handler, and with it the process, leaves the files as they are at that
point: an upload that was not accepted has made a directory at most, and a download has changed
what one that returns could have changed. Under `Storage.conf`, with the names that a page
sends, the paths in the low directory and the storage file stay openable, and only an accepted
upload writes the storage file.

## Key results

- `upload_files_of_not_accepted`: the files after an upload that was not accepted
- `download_returned`: a download changes no more than one that returns
- `Openable.upload`, `Openable.download`: the paths that stay openable
- `fileAt_storage_download`: a download leaves the storage file
-/

namespace Storage

open Path (Place)
open Service

/-! ## Exceptions -/

section
variable {cfg : Config} {z : Zstd} {lib : JsonCpp} {s : Server} {req : Request}

/-- An upload that was not accepted leaves the table, and has made a directory at most, unless
    `fs::exists` threw for a file that it had written. -/
theorem upload_files_of_not_accepted (lib : JsonCpp) {io : UploadIo}
    (hstat : io.stat.existsThrows = false) (h : ∀ t fs, ¬Accepted cfg z io s req t fs) :
    (∀ r ∈ (upload cfg z lib io s req).replies, r.code ≠ 200) ∧
      (upload cfg z lib io s req).server.table = s.table ∧
      ((upload cfg z lib io s req).server.fs = s.fs ∨ ∃ t, uploadTarget cfg io req = .ok t ∧
        FileUtil.createDirectory s.fs t.dir io.mkdirThrows =
          some (upload cfg z lib io s req).server.fs) := by
  obtain ⟨hnil, hthrew⟩ | hreturned := upload_of_not_accepted lib h
  · refine ⟨by simp [hnil], ?_⟩
    unfold upload
    cases htarget : uploadTarget cfg io req with
    | error rejection => cases rejection <;> exact ⟨rfl, .inl rfl⟩
    | ok t =>
      cases hdir : FileUtil.createDirectory s.fs t.dir io.mkdirThrows with
      | none =>
        simp only [hdir]
        exact ⟨rfl, .inl rfl⟩
      | some fs =>
        cases hfits : storeThrows z t with
        | true =>
          simp only [hdir, hfits, ↓reduceIte]
          exact ⟨rfl, .inr ⟨t, rfl, hdir⟩⟩
        | false =>
          cases hok : (storeUpload z fs t io.store).1 with
          | false =>
            have hstore : storeUpload z fs t io.store = (false, fs) :=
              Prod.ext hok (storeUpload_of_not hok)
            simp only [hdir, hfits, Bool.false_eq_true, ↓reduceIte, hstore, true_and]
            exact .inr ⟨t, rfl, hdir⟩
          | true => exact absurd ⟨htarget, hdir, hfits, hok, hstat⟩ (h t fs)
  · exact hreturned

/-- A read that fails to open unpacks nothing. -/
theorem unCompress_closed (fs : FileSystem) (path target : Bytes) (statOk : Bool) (delivered : Nat)
    (io : WriteOutcome) :
    FileUtil.unCompress z fs path target statOk { opens := false, delivered := delivered } io =
      some (false, fs) := by
  have hclosed : ∃ rest, FileUtil.getContent fs path [] statOk
      { opens := false, delivered := delivered } = some (false, rest) := by
    unfold FileUtil.getContent FileUtil.getPosLen
    split
    · exact ⟨_, rfl⟩
    · split
      · exact ⟨_, rfl⟩
      · exact ⟨_, rfl⟩
  obtain ⟨rest, hrest⟩ := hclosed
  simp only [FileUtil.unCompress, hrest]

/-- Sending returns, and keeps the file that it sent if `remove` fails. -/
theorem sendDownload_keeps (fs : FileSystem) (table : Table) (info : StorageInfo) (path : Bytes)
    (req : Request) {io : DownloadIo} (h : io.removes = false) :
    (sendDownload fs table info path req io).exit = .returned ∧
      (sendDownload fs table info path req io).server = ⟨fs, table⟩ := by
  unfold sendDownload
  split
  · exact ⟨rfl, rfl⟩
  · split
    · exact ⟨rfl, rfl⟩
    · simp only [h, Bool.false_eq_true, and_false, ↓reduceIte, and_self]

theorem exit_sendDownload (fs : FileSystem) (table : Table) (info : StorageInfo) (path : Bytes)
    (req : Request) (io : DownloadIo) :
    (sendDownload fs table info path req io).exit = .returned := by
  unfold sendDownload
  split
  · rfl
  · split <;> rfl

/-- The same download with a file that does not open for reading, an `fs::exists` that does not
    throw and a `remove` that fails. -/
def Service.DownloadIo.closed (io : DownloadIo) : DownloadIo :=
  { io with read := { opens := false, delivered := 0 }, existsThrows := false, removes := false }

/-- Where preparing a download throws, it has made the low directory at most. -/
theorem prepareDownload_none {fs fs' : FileSystem} {info : StorageInfo} {io : DownloadIo}
    (h : prepareDownload cfg z fs info io = (fs', none)) :
    fs' = fs ∨ ∃ path, prepareDownload cfg z fs info io.closed = (fs', some path) := by
  unfold prepareDownload at h ⊢
  split at h
  · cases h
  · rename_i hlow
    rw [if_neg hlow]
    cases hdir : FileUtil.createDirectory fs cfg.lowStorageDir io.mkdirThrows with
    | none =>
      rw [hdir] at h
      cases h
      exact .inl rfl
    | some fs₁ =>
      right
      simp only [hdir] at h
      split at h
      · cases h
        simp only [hdir, DownloadIo.closed, unCompress_closed]
        exact ⟨_, rfl⟩
      · cases h

/-- A download that throws on its way to the file leaves what preparing it made. -/
theorem server_download_of_threw {io : DownloadIo} {path : Bytes} {fs : FileSystem}
    {target : Option Bytes} (hpath : urlDecode req.path = some path)
    (hprepare : prepareDownload cfg z s.fs (downloadInfo io s path) io = (fs, target))
    (hthrew : target = none ∨ io.existsThrows = true) :
    (download cfg z io s req).server = ⟨fs, s.table⟩ := by
  unfold download
  simp only [hpath]
  rw [← downloadInfo]
  cases target with
  | none => simp only [hprepare]
  | some target =>
    have hexists := hthrew.resolve_left (by simp)
    simp only [hprepare, hexists, ↓reduceIte]

/-- A download that ends in an exception or a failed assertion leaves the server as it was, or
    as one that returns would leave it. -/
theorem download_returned (cfg : Config) (z : Zstd) (io : DownloadIo) (s : Server)
    (req : Request) :
    (download cfg z io s req).server = s ∨ ∃ io', (download cfg z io' s req).exit = .returned ∧
      (download cfg z io' s req).server = (download cfg z io s req).server := by
  cases hpath : urlDecode req.path with
  | none =>
    left
    simp only [download, hpath]
  | some path =>
    obtain ⟨⟨fs, target⟩, hprepare⟩ : ∃ r, prepareDownload cfg z s.fs (downloadInfo io s path) io =
      r := ⟨_, rfl⟩
    cases target with
    | none =>
      have hserver := server_download_of_threw hpath hprepare (.inl rfl)
      obtain rfl | ⟨target, hclosed⟩ := prepareDownload_none hprepare
      · exact .inl hserver
      · right
        have hsend := sendDownload_keeps fs s.table (downloadInfo io s path) target req
          (show io.closed.removes = false from rfl)
        refine ⟨io.closed, ?_⟩
        rw [hserver, download_eq_sendDownload hpath hclosed
          (show io.closed.existsThrows = false from rfl)]
        exact hsend
    | some target =>
      right
      cases hexists : io.existsThrows with
      | false =>
        refine ⟨io, ?_, rfl⟩
        rw [download_eq_sendDownload hpath hprepare hexists]
        exact exit_sendDownload fs s.table (downloadInfo io s path) target req io
      | true =>
        -- the file is sent after all, and stays
        have hserver := server_download_of_threw hpath hprepare (.inr hexists)
        obtain ⟨io', hio'⟩ : ∃ io', io' = { io with existsThrows := false, removes := false } :=
          ⟨_, rfl⟩
        have hsame : prepareDownload cfg z s.fs (downloadInfo io' s path) io' =
            (fs, some target) := by
          rw [hio']
          exact hprepare
        have hsend := sendDownload_keeps fs s.table (downloadInfo io' s path) target req
          (show io'.removes = false by rw [hio'])
        refine ⟨io', ?_⟩
        rw [hserver, download_eq_sendDownload hpath hsame (by rw [hio'])]
        exact hsend

end

/-! ## Paths that stay openable -/

/-- The page names in the low directory and the storage file can be opened for writing. -/
structure Openable (fs : FileSystem) : Prop where
  page : ∀ name, PageName name → fs.creatable (Config.shipped.lowStorageDir ++ name) = true
  storage : fs.creatable Config.shipped.storageInfo = true

/-- The storage file is not on the way to a directory. -/
private theorem storageInfo_not_mem_withAncestors {dir : Bytes} (hdir : PageDir dir) :
    resolve Config.shipped.storageInfo ∉ withAncestors (resolve dir) := by
  obtain rfl | rfl := hdir
  · decide
  · decide

section
variable {fs fs' : FileSystem} {dir name : Bytes}

theorem Openable.createDirectory (h : Openable fs) {throws : Bool} (hdir : PageDir dir)
    (hmade : FileUtil.createDirectory fs dir throws = some fs') : Openable fs' where
  page := fun _ hname => (keeps_createDirectory (.inl rfl) hname hdir hmade).openable
    (h.page _ hname)
  storage := creatable_createDirectory hmade (storageInfo_not_mem_withAncestors hdir) h.storage

/-- Writing a file of a page name. -/
theorem Openable.store (h : Openable fs) (hdir : PageDir dir) (hname : PageName name)
    (content : Bytes) (time : Int) :
    Openable (fs.store (resolve (dir ++ name)) content time) := by
  have hlow : PageDir Config.shipped.lowStorageDir := .inl rfl
  obtain ⟨-, hbelow, habove⟩ := storageInfo_apart hdir hname
  constructor
  · intro name' hname'
    exact FileSystem.creatable_store content time (not_isBelow_page hdir hname hlow hname')
      (not_isBelow_page hlow hname' hdir hname) (h.page name' hname')
  · exact FileSystem.creatable_store content time habove hbelow h.storage

/-- Writing the storage file. -/
theorem Openable.persist (h : Openable fs) (lib : JsonCpp) (table : Table) (order : HashOrder)
    (io : WriteOutcome) :
    Openable (DataManager.storage Config.shipped lib fs table order io).2 := by
  constructor
  · intro name hname
    exact (keeps_storage (.inl rfl) hname).openable (h.page name hname)
  · simp only [DataManager.storage]
    obtain hsame | ⟨-, written, hstored⟩ := setContent_cases fs Config.shipped.storageInfo
      (DataManager.storageText lib (DataManager.getAll table order)) io
    · rw [hsame]
      exact h.storage
    · rw [hstored]
      exact FileSystem.creatable_store _ _ (FileSystem.isBelow_irrefl _)
        (FileSystem.isBelow_irrefl _) h.storage

theorem Openable.remove (h : Openable fs) (path : Bytes) : Openable (fs.remove path) where
  page := fun _ hname => FileSystem.creatable_remove path (h.page _ hname)
  storage := FileSystem.creatable_remove path h.storage

end

section
variable {z : Zstd} {s : Server} {req : Request}

/-- An accepted upload under a page name. -/
theorem Openable.upload (h : Openable s.fs) (lib : JsonCpp) {io : UploadIo} {t : UploadTarget}
    {fs : FileSystem} (hname : PageName t.fileName)
    (haccept : Accepted Config.shipped z io s req t fs) :
    Openable (Service.upload Config.shipped z lib io s req).server.fs := by
  have hdir := pageDir_of_target haccept.target
  rw [upload_of_accepted haccept]
  exact ((h.createDirectory hdir haccept.directory).store hdir hname _ _).persist lib _ _ _

/-- A transit file lies directly in the low directory, or is that directory itself. -/
theorem transitPath_cases (hcoherent : Coherent s.table) (io : DownloadIo) (url : Bytes) :
    (∃ name, PageName name ∧ transitPath Config.shipped (downloadInfo io s url) =
      Config.shipped.lowStorageDir ++ name) ∨
    transitPath Config.shipped (downloadInfo io s url) = Config.shipped.lowStorageDir := by
  obtain hfound | hempty := downloadInfo_cases io s url
  · obtain ⟨dir, name, hdir, hname, hpath, -⟩ := hcoherent url _ hfound
    left
    exact ⟨name, hname, by rw [transitPath, hpath, fileName_page hdir hname]⟩
  · right
    rw [transitPath, hempty]
    exact List.append_nil _

/-- A path that names a directory cannot be opened for writing. -/
private theorem not_creatable_low {fs : FileSystem} :
    fs.creatable Config.shipped.lowStorageDir = false := by
  have hname : namesFile Config.shipped.lowStorageDir = false := by decide
  simp only [FileSystem.creatable, hname, Bool.false_and]

theorem Openable.download (h : Openable s.fs) (hcoherent : Coherent s.table) {io : DownloadIo}
    (hreturned : (Service.download Config.shipped z io s req).exit = .returned) :
    Openable (Service.download Config.shipped z io s req).server.fs := by
  obtain ⟨-, url, -, hfs | ⟨-, fs₁, fs₂, hmade, hfs₂, hremoved⟩⟩ := download_effect hreturned
  · rwa [hfs]
  · have hmadeOpen := h.createDirectory (.inl rfl) hmade
    have hstored : Openable fs₂ := by
      obtain rfl | ⟨hcreatable, written, rfl⟩ := hfs₂
      · exact hmadeOpen
      · obtain ⟨name, hname, htransit⟩ | htransit := transitPath_cases hcoherent io url
        · rw [htransit]
          exact hmadeOpen.store (.inl rfl) hname _ _
        · rw [htransit, not_creatable_low] at hcreatable
          cases hcreatable
    obtain hfs | hfs := hremoved
    · rwa [hfs]
    · rw [hfs]
      exact hstored.remove _

/-- A download leaves the storage file. -/
theorem fileAt_storage_download (hcoherent : Coherent s.table) {io : DownloadIo}
    (hreturned : (Service.download Config.shipped z io s req).exit = .returned) :
    FileUtil.fileAt (Service.download Config.shipped z io s req).server.fs
        Config.shipped.storageInfo =
      FileUtil.fileAt s.fs Config.shipped.storageInfo := by
  obtain ⟨-, url, -, hfs | ⟨-, fs₁, fs₂, hmade, hfs₂, hremoved⟩⟩ := download_effect hreturned
  · rw [hfs]
  · have hapart : resolve Config.shipped.storageInfo ≠
          resolve (transitPath Config.shipped (downloadInfo io s url)) ∧
        isBelow (resolve (transitPath Config.shipped (downloadInfo io s url)))
          (resolve Config.shipped.storageInfo) = false := by
      obtain ⟨name, hname, htransit⟩ | htransit := transitPath_cases hcoherent io url
      · obtain ⟨hne, -, habove⟩ := storageInfo_apart (.inl rfl) hname
        rw [htransit]
        exact ⟨hne.symm, habove⟩
      · rw [htransit]
        decide
    have hstored : FileUtil.fileAt fs₂ Config.shipped.storageInfo =
        FileUtil.fileAt s.fs Config.shipped.storageInfo := by
      rw [← fileAt_createDirectory hmade]
      obtain rfl | ⟨hcreatable, written, rfl⟩ := hfs₂
      · rfl
      · exact FileSystem.fileAt_store_ne _ _ hcreatable hapart.1
    obtain hfs | hfs := hremoved
    · rw [hfs, hstored]
    · rw [hfs, FileSystem.fileAt_remove_of_apart hapart.1 hapart.2, hstored]

end

/-! ## Loading the storage file -/

/-- A path that can be opened for writing leads to a file or to nothing. -/
theorem find_of_creatable {fs : FileSystem} {path : Bytes} (h : fs.creatable path = true) :
    fs.find path = (FileUtil.fileAt fs path).map Node.file := by
  obtain ⟨-, hdir, -⟩ := FileSystem.creatable_iff.mp h
  unfold FileUtil.fileAt
  cases hfind : fs.find path with
  | none => rfl
  | some node =>
    cases node with
    | file f => rfl
    | directory =>
      rw [(FileSystem.find_eq_directory.mp hfind).2] at hdir
      cases hdir

/-- `InitLoad` reads nothing but the storage file. -/
theorem initLoad_congr {cfg : Config} {fs fs' : FileSystem}
    (h : fs'.find cfg.storageInfo = fs.find cfg.storageInfo) (lib : JsonCpp) (table : Table)
    (io : DataManager.LoadOutcome) :
    DataManager.initLoad cfg lib fs' table io = DataManager.initLoad cfg lib fs table io := by
  have hexists : FileUtil.fileExists fs' cfg.storageInfo io.existsThrows =
      FileUtil.fileExists fs cfg.storageInfo io.existsThrows := by
    rw [FileUtil.fileExists, h, FileUtil.fileExists]
  have hcontent : FileUtil.getContent fs' cfg.storageInfo [] io.sizeOk io.read =
      FileUtil.getContent fs cfg.storageInfo [] io.sizeOk io.read := by
    have hsize : FileUtil.fileSize fs' cfg.storageInfo io.sizeOk =
        FileUtil.fileSize fs cfg.storageInfo io.sizeOk := by
      rw [FileUtil.fileSize, h, FileUtil.fileSize]
    rw [FileUtil.getContent, hsize, FileUtil.getPosLen, hsize, h]
    rfl
  rw [DataManager.initLoad, hexists, hcontent]
  rfl

end Storage
