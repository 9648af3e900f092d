import AsyncLogStorage.Spec.StorageFile
import AsyncLogStorage.Spec.Upload

/-!
# Uploads that fail half way

A reply of `200` stands for three things: the file holds all of the content, the table
has the record of the file, and the storage file has it too. Any other reply stands for
nothing having changed. An upload that is accepted replies `200` whatever becomes of
its later steps, so the first half holds only if each of them succeeds.

## Key results

- `upload_unchanged`: any other reply leaves the files and the table
- `upload_allOrNothing_iff`: what has to succeed for the reply `200` to be right
-/

namespace Storage

open Service

/-- The record that `NewStorageInfo` is to make of a file. It has the two times the other
    way round. -/
def StorageInfo.ofFile (cfg : Config) (path : Bytes) (f : File) : StorageInfo where
  mtime_ := f.atime
  atime_ := f.mtime
  fsize_ := f.content.length
  storage_path_ := path
  url_ := cfg.downloadPrefix ++ FileUtil.fileName path

/-- The complete file is there, the table maps its url to its record, and the storage file
    records it. -/
def Committed (cfg : Config) (z : Zstd) (lib : JsonCpp) (t : UploadTarget) (s : Server) :
    Prop :=
  ∃ f, FileUtil.fileAt s.fs t.path = some f ∧ f.content = storedBytes z t ∧
    s.table.lookup (cfg.downloadPrefix ++ FileUtil.fileName t.path) =
      some (.ofFile cfg t.path f) ∧
    ∃ g, FileUtil.fileAt s.fs cfg.storageInfo = some g ∧
      RecordsIn lib g.content (.ofFile cfg t.path f)

/-- The table and all files are as before. -/
def Unchanged (before after : Server) : Prop :=
  after.table = before.table ∧
    ∀ path, FileUtil.fileAt after.fs path = FileUtil.fileAt before.fs path

def AllOrNothing (cfg : Config) (z : Zstd) (lib : JsonCpp) (io : UploadIo) (s : Server)
    (req : Request) : Prop :=
  ∀ r ∈ (upload cfg z lib io s req).replies,
    (r.code = 200 → ∃ t, uploadTarget cfg io req = .ok t ∧
      Committed cfg z lib t (upload cfg z lib io s req).server) ∧
    (r.code ≠ 200 → Unchanged s (upload cfg z lib io s req).server)

/-! ## What has to succeed -/

/-- The records that an accepted upload writes to the storage file. -/
def persisted (cfg : Config) (z : Zstd) (s : Server) (t : UploadTarget) (io : UploadIo) :
    List StorageInfo :=
  DataManager.getAll
    (s.table.insert (.recorded cfg t.path (storedFile z s.fs t io.store) io.stat)) io.order

/-- The storage file opens for writing once the upload is stored. -/
def PersistOpens (cfg : Config) (z : Zstd) (fs : FileSystem) (t : UploadTarget)
    (io : UploadIo) : Prop :=
  (writtenFs z fs t io.store).creatable cfg.storageInfo = true ∧ io.persist.opens = true

instance (cfg : Config) (z : Zstd) (fs : FileSystem) (t : UploadTarget) (io : UploadIo) :
    Decidable (PersistOpens cfg z fs t io) := inferInstanceAs (Decidable (_ ∧ _))

/-- The path of the upload leads to the storage file. -/
def TargetsStorage (cfg : Config) (t : UploadTarget) : Prop :=
  resolve cfg.storageInfo = resolve t.path

instance (cfg : Config) (t : UploadTarget) : Decidable (TargetsStorage cfg t) :=
  inferInstanceAs (Decidable (_ = _))

/-- When the uploaded file is written last: an upload to the storage file itself is
    written over by `Storage`. -/
def lastWrite (cfg : Config) (z : Zstd) (fs : FileSystem) (t : UploadTarget) (io : UploadIo) :
    Int :=
  if PersistOpens cfg z fs t io ∧ TargetsStorage cfg t then io.persist.time else io.store.time

/-- The file that a complete write leaves. -/
def wholeFile (z : Zstd) (fs : FileSystem) (t : UploadTarget) (io : WriteOutcome) : File :=
  { storedFile z fs t io with content := storedBytes z t }

/-- The storage file already records the upload, though it cannot be written now. -/
def AlreadyRecorded (cfg : Config) (z : Zstd) (lib : JsonCpp) (s : Server) (t : UploadTarget)
    (io : UploadIo) : Prop :=
  let info := StorageInfo.ofFile cfg t.path (wholeFile z s.fs t io.store)
  if TargetsStorage cfg t then
    namesFile cfg.storageInfo = true ∧ RecordsIn lib (storedBytes z t) info
  else
    ∃ g, FileUtil.fileAt s.fs cfg.storageInfo = some g ∧ RecordsIn lib g.content info

/-- The later steps of an accepted upload succeed. A call of `stat` may fail for a time
    that is `-1` anyway. -/
structure Completes (cfg : Config) (z : Zstd) (lib : JsonCpp) (io : UploadIo) (s : Server)
    (t : UploadTarget) (fs : FileSystem) : Prop where
  whole : (storedBytes z t).length ≤ io.store.written
  size : io.stat.sizeOk = true
  access : io.stat.accessOk = true ∨ s.fs.atimeAfter (resolve t.path) io.store.time = -1
  modify : (if io.stat.modifyOk then io.store.time else -1) = lastWrite cfg z fs t io
  persist : PersistOpens cfg z fs t io →
    ∃ text, lib.write (DataManager.root (persisted cfg z s t io)) = some text ∧
      text.length ≤ io.persist.written ∧ 0 ∉ t.path ∧ 0 ∉ cfg.downloadPrefix ∧
      (TargetsStorage cfg t → text = storedBytes z t)
  already : ¬PersistOpens cfg z fs t io → AlreadyRecorded cfg z lib s t io

section
variable {cfg : Config} {z : Zstd} {lib : JsonCpp} {io : UploadIo} {s : Server} {req : Request}
  {t : UploadTarget} {fs : FileSystem}

/-- Any reply but `200` leaves the files and the table. -/
theorem upload_unchanged {r : Reply} (hr : r ∈ (upload cfg z lib io s req).replies)
    (hcode : r.code ≠ 200) : Unchanged s (upload cfg z lib io s req).server := by
  by_cases h : ∃ t fs, Accepted cfg z io s req t fs
  · obtain ⟨t, fs, h⟩ := h
    rw [upload_of_accepted h, List.mem_singleton] at hr
    rw [hr] at hcode
    exact absurd rfl hcode
  · have hnot : ∀ t fs, ¬Accepted cfg z io s req t fs := fun t fs h' => h ⟨t, fs, h'⟩
    obtain ⟨hnil, -⟩ | ⟨-, htable, hfs⟩ := upload_of_not_accepted lib hnot
    · rw [hnil] at hr
      exact (List.not_mem_nil hr).elim
    · refine ⟨htable, fun path => ?_⟩
      obtain hsame | ⟨t, -, hdir⟩ := hfs
      · rw [hsame]
      · exact fileAt_createDirectory hdir

/-- So an upload is all-or-nothing if, once accepted, it is committed. -/
theorem allOrNothing_iff_committed : AllOrNothing cfg z lib io s req ↔
    ∀ t fs, Accepted cfg z io s req t fs →
      Committed cfg z lib t (upload cfg z lib io s req).server := by
  constructor
  · -- an accepted upload replies `200`
    intro h t fs hacc
    have hmem : reply 200 "Success" ∈ (upload cfg z lib io s req).replies := by
      rw [upload_of_accepted hacc]
      exact List.mem_singleton_self _
    obtain ⟨t', htarget, hcommitted⟩ := (h _ hmem).1 rfl
    rw [hacc.target] at htarget
    cases htarget
    exact hcommitted
  · intro h r hr
    refine ⟨fun hcode => ?_, upload_unchanged hr⟩
    -- nothing else does
    by_cases hacc : ∃ t fs, Accepted cfg z io s req t fs
    · obtain ⟨t, fs, hacc⟩ := hacc
      exact ⟨t, hacc.target, h t fs hacc⟩
    · obtain ⟨hnil, -⟩ | ⟨hcodes, -⟩ :=
        upload_of_not_accepted lib fun t fs h' => hacc ⟨t, fs, h'⟩
      · rw [hnil] at hr
        exact (List.not_mem_nil hr).elim
      · exact absurd hcode (hcodes r hr)

/-- The text that an accepted upload writes to the storage file, as far as it gets there. -/
def persistedText (cfg : Config) (z : Zstd) (lib : JsonCpp) (s : Server) (t : UploadTarget)
    (io : UploadIo) : Bytes :=
  (DataManager.storageText lib (persisted cfg z s t io)).take io.persist.written

/-- The uploaded file at the end. -/
def finalFile (cfg : Config) (z : Zstd) (lib : JsonCpp) (s : Server) (t : UploadTarget)
    (fs : FileSystem) (io : UploadIo) : File where
  content := if PersistOpens cfg z fs t io ∧ TargetsStorage cfg t then
    persistedText cfg z lib s t io else (storedFile z s.fs t io.store).content
  mtime := lastWrite cfg z fs t io
  atime := s.fs.atimeAfter (resolve t.path) io.store.time

theorem upload_fs (h : Accepted cfg z io s req t fs) :
    (upload cfg z lib io s req).server.fs =
      if PersistOpens cfg z fs t io then
        (writtenFs z fs t io.store).store (resolve cfg.storageInfo)
          (persistedText cfg z lib s t io) io.persist.time
      else writtenFs z fs t io.store := by
  rw [upload_of_accepted h]
  simp only [DataManager.storage, setContent_eq]
  by_cases hopens : PersistOpens cfg z fs t io
  · have hboth : (writtenFs z fs t io.store).creatable cfg.storageInfo = true ∧
        io.persist.opens = true := hopens
    rw [if_pos hopens, if_pos hboth]
    rfl
  · have hboth : ¬((writtenFs z fs t io.store).creatable cfg.storageInfo = true ∧
        io.persist.opens = true) := hopens
    rw [if_neg hopens, if_neg hboth]

/-- The access time stays when a file is written again. -/
theorem atimeAfter_of_fileAt {path : Bytes} {f : File} (h : FileUtil.fileAt fs path = some f)
    (time : Int) : fs.atimeAfter (resolve path) time = f.atime := by
  obtain ⟨-, -, hfile⟩ := FileSystem.fileAt_eq_some.mp h
  simp only [FileSystem.atimeAfter, hfile]

theorem fileAt_upload (h : Accepted cfg z io s req t fs) :
    FileUtil.fileAt (upload cfg z lib io s req).server.fs t.path =
      some (finalFile cfg z lib s t fs io) := by
  have hfile := h.fileAt
  obtain ⟨hname, -, -⟩ := FileSystem.fileAt_eq_some.mp hfile
  rw [upload_fs h]
  by_cases hopens : PersistOpens cfg z fs t io
  · rw [if_pos hopens]
    by_cases hsame : TargetsStorage cfg t
    · -- `Storage` writes over the upload
      have hstored := FileSystem.fileAt_store (persistedText cfg z lib s t io) io.persist.time
        hopens.1
      have hatime : (writtenFs z fs t io.store).atimeAfter (resolve cfg.storageInfo)
          io.persist.time = s.fs.atimeAfter (resolve t.path) io.store.time := by
        rw [show resolve cfg.storageInfo = resolve t.path from hsame, atimeAfter_of_fileAt hfile]
        rfl
      rw [FileSystem.fileAt_of_resolve_eq hsame.symm hstored, if_pos hname, hatime]
      simp only [finalFile, lastWrite, hopens, hsame, and_self, ↓reduceIte]
    · -- the storage file is another one
      have hne : resolve t.path ≠ resolve cfg.storageInfo := fun heq => hsame heq.symm
      rw [FileSystem.fileAt_store_ne _ _ hopens.1 hne, hfile]
      simp only [finalFile, lastWrite, hsame, and_false, ↓reduceIte]
      rfl
  · rw [if_neg hopens, hfile]
    simp only [finalFile, lastWrite, hopens, false_and, ↓reduceIte]
    rfl

theorem fileAt_storageInfo_upload (h : Accepted cfg z io s req t fs) :
    FileUtil.fileAt (upload cfg z lib io s req).server.fs cfg.storageInfo =
      if PersistOpens cfg z fs t io then
        some { content := persistedText cfg z lib s t io, mtime := io.persist.time,
               atime := (writtenFs z fs t io.store).atimeAfter (resolve cfg.storageInfo)
                 io.persist.time }
      else if TargetsStorage cfg t then
        if namesFile cfg.storageInfo then some (storedFile z s.fs t io.store) else none
      else FileUtil.fileAt s.fs cfg.storageInfo := by
  rw [upload_fs h]
  by_cases hopens : PersistOpens cfg z fs t io
  · rw [if_pos hopens, if_pos hopens]
    exact FileSystem.fileAt_store _ _ hopens.1
  · rw [if_neg hopens, if_neg hopens]
    by_cases hsame : TargetsStorage cfg t
    · rw [if_pos hsame]
      exact FileSystem.fileAt_of_resolve_eq hsame h.fileAt
    · rw [if_neg hsame]
      obtain ⟨-, hcreatable, -⟩ := storeUpload_fst.mp h.store
      exact (FileSystem.fileAt_store_ne _ _ hcreatable hsame).trans
        (fileAt_createDirectory h.directory)

/-- An accepted upload is committed if the final state of its file and of the storage file
    fits the record it inserted. -/
theorem committed_iff (h : Accepted cfg z io s req t fs) :
    Committed cfg z lib t (upload cfg z lib io s req).server ↔
      (finalFile cfg z lib s t fs io).content = storedBytes z t ∧
      StorageInfo.recorded cfg t.path (storedFile z s.fs t io.store) io.stat =
        .ofFile cfg t.path (finalFile cfg z lib s t fs io) ∧
      ∃ g, FileUtil.fileAt (upload cfg z lib io s req).server.fs cfg.storageInfo = some g ∧
        RecordsIn lib g.content (.ofFile cfg t.path (finalFile cfg z lib s t fs io)) := by
  have hlookup : (upload cfg z lib io s req).server.table.lookup
      (cfg.downloadPrefix ++ FileUtil.fileName t.path) =
      some (.recorded cfg t.path (storedFile z s.fs t io.store) io.stat) := by
    rw [upload_of_accepted h]
    exact Table.lookup_insert s.table (.recorded cfg t.path (storedFile z s.fs t io.store) io.stat)
  unfold Committed
  rw [hlookup, fileAt_upload h]
  constructor
  · rintro ⟨f, hf, hcontent, hrecord, hstorage⟩
    cases hf
    exact ⟨hcontent, Option.some.inj hrecord, hstorage⟩
  · rintro ⟨hcontent, hrecord, hstorage⟩
    exact ⟨_, rfl, hcontent, congrArg some hrecord, hstorage⟩

/-- The inserted record is that of a file with the stored bytes if they were all written
    and the calls of `stat` gave what is true of it. -/
theorem recorded_eq_ofFile_iff {f : File}
    (hsize : (storedBytes z t).length ≤ FileUtil.stringMaxSize)
    (hcontent : f.content = storedBytes z t)
    (hatime : f.atime = s.fs.atimeAfter (resolve t.path) io.store.time) :
    StorageInfo.recorded cfg t.path (storedFile z s.fs t io.store) io.stat =
        .ofFile cfg t.path f ↔
      (storedBytes z t).length ≤ io.store.written ∧ io.stat.sizeOk = true ∧
      (io.stat.accessOk = true ∨ s.fs.atimeAfter (resolve t.path) io.store.time = -1) ∧
      (if io.stat.modifyOk then io.store.time else -1) = f.mtime := by
  have hlt := FileUtil.stringMaxSize_lt
  have haccess : (if io.stat.accessOk then s.fs.atimeAfter (resolve t.path) io.store.time else -1) =
        s.fs.atimeAfter (resolve t.path) io.store.time ↔
      io.stat.accessOk = true ∨ s.fs.atimeAfter (resolve t.path) io.store.time = -1 := by
    cases io.stat.accessOk with
    | true => simp
    | false => simp [eq_comm]
  have hfsize : FileUtil.toSizeT (if io.stat.sizeOk then
        ((storedBytes z t).take io.store.written).length else -1) = (storedBytes z t).length ↔
      (storedBytes z t).length ≤ io.store.written ∧ io.stat.sizeOk = true := by
    cases io.stat.sizeOk with
    | true =>
      have hlen : ((storedBytes z t).take io.store.written).length ≤ FileUtil.stringMaxSize := by
        rw [List.length_take]
        omega
      simp only [↓reduceIte, and_true]
      rw [toSizeT_of_le hlen, List.length_take]
      omega
    | false =>
      -- the size of a file that `stat` failed on is the greatest `size_t`
      have hfail : FileUtil.toSizeT (-1) = 18446744073709551615 := by decide
      simp only [Bool.false_eq_true, ↓reduceIte, hfail, and_false, iff_false]
      omega
  simp only [StorageInfo.recorded, StorageInfo.ofFile, StorageInfo.mk.injEq, and_true, hcontent,
    hatime]
  rw [show (storedFile z s.fs t io.store).atime = s.fs.atimeAfter (resolve t.path) io.store.time
      from rfl, show (storedFile z s.fs t io.store).mtime = io.store.time from rfl,
    show (storedFile z s.fs t io.store).content = (storedBytes z t).take io.store.written from rfl,
    haccess, hfsize]
  constructor
  · rintro ⟨ha, hm, hw, hs⟩
    exact ⟨hw, hs, ha, hm⟩
  · rintro ⟨hw, hs, ha, hm⟩
    exact ⟨ha, hm, hw, hs⟩

/-- The inserted record is among those that go to the storage file. -/
theorem mem_persisted : StorageInfo.recorded cfg t.path (storedFile z s.fs t io.store) io.stat ∈
    persisted cfg z s t io := by
  apply (io.order.perm _).mem_iff.mpr
  exact Table.mem_records.mpr (Table.lookup_insert s.table _)

/-- Its strings are whole if the path and the prefix of urls are. -/
theorem nulFree_recorded_iff (f : File) (stat : StatOutcome) :
    (StorageInfo.recorded cfg t.path f stat).NulFree ↔ 0 ∉ t.path ∧ 0 ∉ cfg.downloadPrefix := by
  show 0 ∉ t.path ∧ 0 ∉ cfg.downloadPrefix ++ FileUtil.fileName t.path ↔ _
  rw [List.mem_append, not_or]
  -- the file name is the end of the path
  constructor
  · rintro ⟨hpath, hprefix, -⟩
    exact ⟨hpath, hprefix⟩
  · rintro ⟨hpath, hprefix⟩
    exact ⟨hpath, hprefix, fun hmem => hpath ((fileName_suffix t.path).subset hmem)⟩

/-- What the storage file holds of the upload after it was written. -/
theorem recordsIn_persistedText (hlib : lib.Faithful (DataManager.root (persisted cfg z s t io))) :
    RecordsIn lib (persistedText cfg z lib s t io)
        (.recorded cfg t.path (storedFile z s.fs t io.store) io.stat) ↔
      ∃ text, lib.write (DataManager.root (persisted cfg z s t io)) = some text ∧
        text.length ≤ io.persist.written ∧ 0 ∉ t.path ∧ 0 ∉ cfg.downloadPrefix := by
  rw [persistedText, recordsIn_storageText hlib, exists_item_iff mem_persisted,
    nulFree_recorded_iff]

theorem persistedText_eq {text : Bytes}
    (hwrite : lib.write (DataManager.root (persisted cfg z s t io)) = some text)
    (hlen : text.length ≤ io.persist.written) : persistedText cfg z lib s t io = text := by
  simp only [persistedText, DataManager.storageText, JsonUtil.serialize, hwrite,
    List.take_of_length_le hlen]

/-- Without a write of the storage file over it, a complete upload is the whole file. -/
theorem finalFile_eq (hnot : ¬(PersistOpens cfg z fs t io ∧ TargetsStorage cfg t))
    (hcontent : (finalFile cfg z lib s t fs io).content = storedBytes z t) :
    finalFile cfg z lib s t fs io = wholeFile z s.fs t io.store := by
  rw [finalFile, if_neg hnot] at hcontent
  have hstored : (storedFile z s.fs t io.store).content = storedBytes z t := hcontent
  simp only [finalFile, wholeFile, lastWrite, if_neg hnot, hstored]
  rfl

/-- A committed upload shows that its later steps have succeeded. -/
private theorem completes_of_committed (h : Accepted cfg z io s req t fs)
    (hsize : (storedBytes z t).length ≤ FileUtil.stringMaxSize)
    (hlib : lib.Faithful (DataManager.root (persisted cfg z s t io))) :
    Committed cfg z lib t (upload cfg z lib io s req).server →
      Completes cfg z lib io s t fs := by
  rw [committed_iff h]
  rintro ⟨hcontent, hrecord, g, hg, hrec⟩
  -- the content and the record give the write and the calls of `stat`
  obtain ⟨hwhole, hsizeOk, haccess, hmodify⟩ :=
    (recorded_eq_ofFile_iff hsize hcontent rfl).mp hrecord
  refine ⟨hwhole, hsizeOk, haccess, hmodify, fun hopens => ?_, fun hopens => ?_⟩
  · -- the storage file was written: its text holds the record, so it is whole
    rw [fileAt_storageInfo_upload h, if_pos hopens] at hg
    cases hg
    rw [← hrecord] at hrec
    obtain ⟨text, hwrite, hlen, hfree⟩ := (recordsIn_persistedText hlib).mp hrec
    refine ⟨text, hwrite, hlen, hfree.1, hfree.2, fun hsame => ?_⟩
    rw [finalFile, if_pos ⟨hopens, hsame⟩, persistedText_eq hwrite hlen] at hcontent
    exact hcontent
  · -- it was not: it is the uploaded file, or as before
    have hnot : ¬(PersistOpens cfg z fs t io ∧ TargetsStorage cfg t) := fun hboth =>
      hopens hboth.1
    rw [fileAt_storageInfo_upload h, if_neg hopens] at hg
    rw [finalFile_eq hnot hcontent] at hrec
    unfold AlreadyRecorded
    split at hg
    · rename_i hsame
      rw [if_pos hsame]
      obtain ⟨hname, hfile⟩ := Option.ite_none_right_eq_some.mp hg
      cases hfile
      rw [finalFile, if_neg hnot] at hcontent
      rw [hcontent] at hrec
      exact ⟨hname, hrec⟩
    · rename_i hsame
      rw [if_neg hsame]
      exact ⟨g, hg, hrec⟩

/-- Steps that succeed commit the upload. -/
private theorem committed_of_completes (h : Accepted cfg z io s req t fs)
    (hsize : (storedBytes z t).length ≤ FileUtil.stringMaxSize)
    (hlib : lib.Faithful (DataManager.root (persisted cfg z s t io))) :
    Completes cfg z lib io s t fs →
      Committed cfg z lib t (upload cfg z lib io s req).server := by
  rw [committed_iff h]
  rintro ⟨hwhole, hsizeOk, haccess, hmodify, hpersist, halready⟩
  have hstored : (storedFile z s.fs t io.store).content = storedBytes z t :=
    List.take_of_length_le hwhole
  -- what is written over the upload, if anything, are its own bytes
  have hcontent : (finalFile cfg z lib s t fs io).content = storedBytes z t := by
    by_cases hboth : PersistOpens cfg z fs t io ∧ TargetsStorage cfg t
    · obtain ⟨text, hwrite, hlen, -, -, hown⟩ := hpersist hboth.1
      rw [finalFile, if_pos hboth, persistedText_eq hwrite hlen]
      exact hown hboth.2
    · rw [finalFile, if_neg hboth]
      exact hstored
  have hrecord : StorageInfo.recorded cfg t.path (storedFile z s.fs t io.store) io.stat =
      .ofFile cfg t.path (finalFile cfg z lib s t fs io) :=
    (recorded_eq_ofFile_iff hsize hcontent rfl).mpr ⟨hwhole, hsizeOk, haccess, hmodify⟩
  refine ⟨hcontent, hrecord, ?_⟩
  -- the storage file holds the record, from this upload or from before
  rw [fileAt_storageInfo_upload h]
  by_cases hopens : PersistOpens cfg z fs t io
  · rw [if_pos hopens, ← hrecord]
    obtain ⟨text, hwrite, hlen, hpath, hprefix, -⟩ := hpersist hopens
    exact ⟨_, rfl, (recordsIn_persistedText hlib).mpr ⟨text, hwrite, hlen, hpath, hprefix⟩⟩
  · have hnot : ¬(PersistOpens cfg z fs t io ∧ TargetsStorage cfg t) := fun hboth =>
      hopens hboth.1
    have hrec := halready hopens
    unfold AlreadyRecorded at hrec
    rw [if_neg hopens, finalFile_eq hnot hcontent]
    split
    · rename_i hsame
      rw [if_pos hsame] at hrec
      rw [if_pos hrec.1]
      refine ⟨_, rfl, ?_⟩
      rw [hstored]
      exact hrec.2
    · rename_i hsame
      rwa [if_neg hsame] at hrec

/-- An accepted upload is committed exactly if its later steps succeed. -/
theorem committed_iff_completes (h : Accepted cfg z io s req t fs)
    (hsize : (storedBytes z t).length ≤ FileUtil.stringMaxSize)
    (hlib : lib.Faithful (DataManager.root (persisted cfg z s t io))) :
    Committed cfg z lib t (upload cfg z lib io s req).server ↔
      Completes cfg z lib io s t fs :=
  ⟨completes_of_committed h hsize hlib, committed_of_completes h hsize hlib⟩

/-- An upload is all-or-nothing exactly if, once it is accepted, every later step succeeds. -/
theorem upload_allOrNothing_iff
    (hframe : ∀ content frame, content.length ≤ FileUtil.stringMaxSize →
      z.compress content = some frame → frame.length ≤ FileUtil.stringMaxSize)
    (hlib : ∀ t fs, Accepted cfg z io s req t fs →
      lib.Faithful (DataManager.root (persisted cfg z s t io))) :
    AllOrNothing cfg z lib io s req ↔
      ∀ t fs, Accepted cfg z io s req t fs → Completes cfg z lib io s t fs := by
  rw [allOrNothing_iff_committed]
  constructor
  · intro h t fs hacc
    have hsize := storedBytes_length_le hframe hacc.target
    exact (committed_iff_completes hacc hsize (hlib t fs hacc)).mp (h t fs hacc)
  · intro h t fs hacc
    have hsize := storedBytes_length_le hframe hacc.target
    exact (committed_iff_completes hacc hsize (hlib t fs hacc)).mpr (h t fs hacc)

end

set_option maxRecDepth 2048 in
theorem upload_allOrNothing_small :
    AllOrNothing Config.shipped storedZstd (smallJson 2 "2") (smallIo 2) ⟨∅, .empty⟩
      smallUpload := by
  have hopens : ∀ fs, FileUtil.createDirectory ∅ Config.shipped.lowStorageDir false = some fs →
      PersistOpens Config.shipped storedZstd fs smallTarget (smallIo 2) := by
    intro fs hfs
    cases hfs
    decide
  have hother : ¬TargetsStorage Config.shipped smallTarget := by decide
  have hwhole : (storedBytes storedZstd smallTarget).length ≤ (smallIo 2).store.written := by
    decide
  have hnul : 0 ∉ smallTarget.path ∧ 0 ∉ Config.shipped.downloadPrefix := by decide
  apply (upload_allOrNothing_iff ?_ ?_).mpr
  · intro t fs hacc
    have htarget := hacc.target
    rw [uploadTarget_small] at htarget
    cases htarget
    refine ⟨hwhole, rfl, .inl rfl, ?_, fun _ => ?_, fun hnot => ?_⟩
    · have hboth : ¬(PersistOpens Config.shipped storedZstd fs smallTarget (smallIo 2) ∧
          TargetsStorage Config.shipped smallTarget) := fun h => hother h.2
      rw [lastWrite, if_neg hboth]
      rfl
    · -- the storage file gets the whole text
      exact ⟨_, rfl, by decide, hnul.1, hnul.2, fun hsame => absurd hsame hother⟩
    · exact absurd (hopens fs hacc.directory) hnot
  · intro content frame hsize hframe
    rw [← Option.some.inj hframe]
    exact hsize
  · intro t fs hacc
    have htarget := hacc.target
    rw [uploadTarget_small] at htarget
    cases htarget
    exact JsonCpp.single_faithful _ (by decide)

/-- The same upload on a full disk: it replies `200` and leaves an empty file. -/
theorem upload_not_allOrNothing :
    ¬AllOrNothing Config.shipped storedZstd (smallJson 0 "0") (smallIo 0) ⟨∅, .empty⟩
      smallUpload := by
  have hmem : reply 200 "Success" ∈ (upload Config.shipped storedZstd (smallJson 0 "0")
      (smallIo 0) ⟨∅, .empty⟩ smallUpload).replies := by decide
  have hempty : FileUtil.fileAt (upload Config.shipped storedZstd (smallJson 0 "0") (smallIo 0)
      ⟨∅, .empty⟩ smallUpload).server.fs smallTarget.path =
      some { content := [], mtime := 100, atime := 100 } := by decide
  intro h
  obtain ⟨t, htarget, f, hfile, hcontent, -⟩ := (h _ hmem).1 rfl
  rw [uploadTarget_small] at htarget
  cases htarget
  rw [hempty] at hfile
  cases hfile
  exact absurd hcontent (by decide)

end Storage
