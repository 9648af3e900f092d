import AsyncLogStorage.Spec.Held
import AsyncLogStorage.Spec.StorageFile
import AsyncLogStorage.Spec.UrlDecode

/-!
# Upload and download

A download gives back the stored bytes or what `unpack` makes of them, so the round trip
depends on whether the upload packed what the download unpacks.

## Key results

- `download_of_held`: what a download of a kept upload replies
- `download_upload_iff`: when that is what was uploaded
-/

namespace Storage

open Path (Place)
open Service

/-! ## The reply -/

/-- Everything succeeds, for strings of any size. -/
structure Service.DownloadIo.Succeeds (io : DownloadIo) : Prop where
  mkdir : io.mkdirThrows = false
  stat : io.statOk = true
  readOpens : io.read.opens = true
  delivered : FileUtil.stringMaxSize ≤ io.read.delivered
  storeOpens : io.store.opens = true
  written : FileUtil.stringMaxSize ≤ io.store.written
  exist : io.existsThrows = false
  opens : io.opens = true
  adds : io.adds = true

section
variable {z : Zstd} {s : Server} {io : DownloadIo} {req : Request} {name dir stored : Bytes}

/-- The low directory can be made if a page name in it can be opened. -/
theorem exists_createDirectory_low (hname : PageName name)
    (hopen : s.fs.creatable (Config.shipped.lowStorageDir ++ name) = true) :
    ∃ fs, FileUtil.createDirectory s.fs Config.shipped.lowStorageDir false = some fs := by
  obtain ⟨-, -, hfree⟩ := FileSystem.creatable_iff.mp hopen
  have hbelow : isBelow (resolve (Config.shipped.lowStorageDir ++ name))
      (resolve Config.shipped.lowStorageDir) = true := by
    rw [resolve_page (.inl rfl) hname]
    simp [isBelow, Place.child, Place.descend]
  have hway : s.fs.anyFile (withAncestors (resolve Config.shipped.lowStorageDir)) = false := by
    apply List.any_eq_false.mpr
    intro k hk
    obtain ⟨hne, rfl | habove⟩ := FileSystem.mem_withAncestors.mp hk
    · exact List.any_eq_false.mp hfree _
        (FileSystem.mem_dropLast_withAncestors.mpr ⟨hne, hbelow⟩)
    · exact List.any_eq_false.mp hfree _ (FileSystem.mem_dropLast_withAncestors.mpr
        ⟨hne, FileSystem.isBelow_trans hbelow habove⟩)
  exact exists_createDirectory (by decide) hway

/-- A download of a held upload sends the stored bytes from the low directory, and what
    `unpack` makes of them otherwise. -/
theorem download_of_held (hz : z.Correct) (hname : PageName name) (hdir : PageDir dir)
    (hheld : Held name dir stored s) (hsize : stored.length ≤ FileUtil.stringMaxSize)
    (hpath : urlDecode req.path = some (Config.shipped.downloadPrefix ++ name))
    (hrange : req.ifRange = none) (hio : io.Succeeds) :
    (download Config.shipped z io s req).replies =
      if dir = Config.shipped.lowStorageDir then
        [{ reply 200 "Success" with body := stored }]
      else match ZstdWrapper.unpack z stored with
        | some body => [{ reply 200 "Success" with body := body }]
        | none => [] := by
  obtain ⟨info, hlookup, hinfo⟩ := hheld.record
  obtain ⟨f, hf, rfl⟩ := hheld.file
  have hone : (DataManager.getOneByURL s.table (Config.shipped.downloadPrefix ++ name)
      { mtime_ := io.uninit.1, atime_ := io.uninit.2.1, fsize_ := io.uninit.2.2,
        storage_path_ := [], url_ := [] }).2 = info := by
    simp only [DataManager.getOneByURL, hlookup]
  simp only [download, hpath, hone, prepareDownload, hinfo, fileName_page hdir hname]
  by_cases hlow : dir = Config.shipped.lowStorageDir
  · -- the stored file itself
    have hcontains := (contains_lowStorageDir hdir hname).mpr hlow
    simp only [if_pos hlow, if_pos hcontains, hio.exist, Bool.false_eq_true, ↓reduceIte]
    exact sendDownload_file hf hio.opens hio.adds hrange
  · -- it is read, unpacked and written to the low directory
    have hcontains := mt (contains_lowStorageDir hdir hname).mp hlow
    obtain ⟨fs, hmade⟩ := exists_createDirectory_low hname hheld.openable
    have hkept := keeps_createDirectory hdir hname (.inl rfl) hmade
    have hopen := (keeps_createDirectory (.inl rfl) hname (.inl rfl) hmade).openable hheld.openable
    have hread := getContent_of_fileAt [] (hkept.file f hf) hsize hio.readOpens
      (hsize.trans hio.delivered)
    simp only [if_neg hlow, if_neg hcontains, hio.mkdir, hmade, FileUtil.unCompress, hio.stat,
      hread]
    cases hunpack : ZstdWrapper.unpack z f.content with
    -- `resize` throws for the size in the frame
    | none => rfl
    | some body =>
      have hlen : body.length ≤ io.store.written :=
        (ZstdWrapper.unpack_length_le hz hsize hunpack).trans hio.written
      have hset : FileUtil.setContent fs (Config.shipped.lowStorageDir ++ name) body io.store =
          (true, fs.store (resolve (Config.shipped.lowStorageDir ++ name)) body io.store.time) := by
        rw [setContent_eq, if_pos ⟨hopen, hio.storeOpens⟩, List.take_of_length_le hlen]
      have hfile := FileSystem.fileAt_store body io.store.time hopen
      simp only [Option.map_some, hset, hio.exist, Bool.false_eq_true, ↓reduceIte]
      exact sendDownload_file hfile hio.opens hio.adds hrange

/-- What an upload stores is packed if its directory is the deep one and its name does not
    mention `low_storage`. -/
theorem storedBytes_page {t : UploadTarget} (hdir : PageDir t.dir) :
    storedBytes z t =
      if t.dir = Config.shipped.lowStorageDir ∨
          t.fileName.contains (Bytes.ofString "low_storage") = true then t.content
      else ZstdWrapper.pack z t.content := by
  have hpath : t.path.contains (Bytes.ofString "low_storage") = true ↔
      t.dir = Config.shipped.lowStorageDir ∨
        t.fileName.contains (Bytes.ofString "low_storage") = true := contains_lowStorage hdir
  rw [storedBytes]
  by_cases h : t.path.contains (Bytes.ofString "low_storage") = true
  · rw [if_pos h, if_pos (hpath.mp h)]
  · rw [if_neg h, if_neg (mt hpath.mpr h)]

end

/-- A download of what a page uploaded gives it back exactly if it was uploaded into the low
    directory, or under a name without `low_storage` in it, or is left alone by `unpack`. -/
theorem download_upload_iff {z : Zstd} {lib : JsonCpp} (hz : z.Correct) {s s' : Server}
    {io : UploadIo} {req : Request} {t : UploadTarget} {fs : FileSystem} {es : List Event}
    {dio : DownloadIo} {dreq : Request}
    (hreach : (service z lib).ReachableBy (fun _ e => Shows t.fileName e) s)
    (hname : PageName t.fileName)
    (hopen : s.fs.creatable (Config.shipped.lowStorageDir ++ t.fileName) = true)
    (haccept : Accepted Config.shipped z io s req t fs)
    (hwhole : (storedBytes z t).length ≤ io.store.written)
    (hes : (service z lib).AllSteps (fun _ e => Spares t.fileName t.dir e)
      (upload Config.shipped z lib io s req).server es)
    (hrun : (service z lib).run (upload Config.shipped z lib io s req).server es = some s')
    (hpath : Encodes dreq.path (Config.shipped.downloadPrefix ++ t.fileName))
    (hrange : dreq.ifRange = none) (hio : dio.Succeeds) :
    (download Config.shipped z dio s' dreq).replies =
        [{ reply 200 "Success" with body := t.content }] ↔
      t.dir = Config.shipped.lowStorageDir ∨
      t.fileName.contains (Bytes.ofString "low_storage") = false ∨
      ZstdWrapper.unpack z t.content = some t.content := by
  have hdir := pageDir_of_target haccept.target
  have htable : OnlyUrl t.fileName s.table :=
    hreach.invariant (I := fun s => OnlyUrl t.fileName s.table)
      (fun s (h : ∀ name, OnlyUrl name s.table) => h t.fileName)
      fun _ _ _ htable hshows hstep => step_onlyUrl htable hshows hstep
  have hshows : Shows t.fileName (.upload io req) := by
    intro t' htarget _
    rw [haccept.target] at htarget
    cases htarget
    exact fileName_page hdir hname
  have hreturned : (upload Config.shipped z lib io s req).exit = .returned := by
    rw [upload_of_accepted haccept]
  have hheld : Held t.fileName t.dir (storedBytes z t) s' :=
    run_held hname hdir (onlyUrl_upload htable hshows hreturned)
      (held_of_upload hname hopen haccept hwhole) hes hrun
  obtain ⟨-, -, hcontent, -⟩ := uploadTarget_ok.mp haccept.target
  have hstored := storedBytes_page (z := z) hdir
  have hsize := storedBytes_length_le hz.compress_le haccept.target
  rw [download_of_held hz hname hdir hheld hsize (urlDecode_of_encodes hpath) hrange hio]
  by_cases hlow : t.dir = Config.shipped.lowStorageDir
  · -- stored as it came, and sent as it is
    rw [if_pos hlow, hstored, if_pos (.inl hlow)]
    exact iff_of_true rfl (.inl hlow)
  · rw [if_neg hlow]
    cases hmention : t.fileName.contains (Bytes.ofString "low_storage") with
    | true =>
      -- stored as it came, and unpacked all the same
      rw [hstored, if_pos (.inr hmention)]
      cases hunpack : ZstdWrapper.unpack z t.content with
      | none => simp [hlow]
      | some body => simp [hlow, reply]
    | false =>
      -- packed and unpacked
      have hneither : ¬(t.dir = Config.shipped.lowStorageDir ∨
          t.fileName.contains (Bytes.ofString "low_storage") = true) := by
        simp [hlow, hmention]
      rw [hstored, if_neg hneither]
      have hpacked : ZstdWrapper.pack z t.content ≠ [] := by
        obtain ⟨hfound | hpacked, -⟩ := storeUpload_fst.mp haccept.store
        · exact absurd ((contains_lowStorage hdir).mp hfound) hneither
        · exact hpacked
      rw [ZstdWrapper.unpack_pack hz hcontent hpacked]
      simp

theorem wholeDownload_succeeds : wholeDownload.Succeeds :=
  ⟨rfl, rfl, rfl, Nat.le_refl _, rfl, Nat.le_refl _, rfl, rfl, rfl⟩

theorem encodes_smallDownload :
    Encodes smallDownload.path (Config.shipped.downloadPrefix ++ smallTarget.fileName) := by
  have hself : Encodes Config.shipped.downloadPrefix Config.shipped.downloadPrefix :=
    encodes_self (by decide)
  have hescape : Encodes (Bytes.ofString "%61") (Bytes.ofString "a") := by
    have hx : IsHexDigit 54 6 := .inl (by decide)
    have hy : IsHexDigit 49 1 := .inl (by decide)
    exact .escape (b := 97) hx hy .nil
  exact encodes_append hself hescape

theorem accepted_small : ∃ fs, Accepted Config.shipped storedZstd (smallIo 2) ⟨∅, .empty⟩
    smallUpload smallTarget fs := by
  have hmade : (FileUtil.createDirectory ∅ smallTarget.dir false).isSome = true := by decide
  have hstore : ∀ fs, FileUtil.createDirectory ∅ smallTarget.dir false = some fs →
      (storeUpload storedZstd fs smallTarget (smallIo 2).store).1 = true := by
    intro fs hfs
    cases hfs
    decide
  obtain ⟨fs, hfs⟩ := Option.isSome_iff_exists.mp hmade
  exact ⟨fs, uploadTarget_small 2, hfs, by decide, hstore fs hfs, rfl⟩

theorem reachable_empty (z : Zstd) (lib : JsonCpp) (C : Server → Event → Prop) :
    (service z lib).ReachableBy C ⟨∅, .empty⟩ := by
  have hinit : ∀ name, OnlyUrl name Table.empty := by
    intro name url info h
    rw [Table.lookup_empty] at h
    cases h
  exact ⟨⟨∅, .empty⟩, [], hinit, trivial, rfl⟩

/-- The same two bytes under the name `b`. -/
def otherUpload : Request := { smallUpload with fileName := some (Bytes.ofString "Yg==") }

/-- `b` is uploaded, and `a` downloaded. -/
def smallHistory : List Event :=
  [.upload (smallIo 2) otherUpload, .download wholeDownload smallDownload]

theorem spares_otherUpload :
    Spares smallTarget.fileName smallTarget.dir (.upload (smallIo 2) otherUpload) := by
  have hname : ∀ t, uploadTarget Config.shipped (smallIo 2) otherUpload = .ok t →
      t.fileName = Bytes.ofString "b" := by
    intro t htarget
    cases htarget
    rfl
  have hpage : FromPage (.upload (smallIo 2) otherUpload) := by
    intro t htarget
    rw [hname t htarget]
    exact ⟨by decide, by decide, by decide, by decide, by decide⟩
  have hother : ¬Uploads smallTarget.fileName (.upload (smallIo 2) otherUpload) := by
    rintro ⟨t, htarget, heq⟩
    rw [hname t htarget] at heq
    exact absurd heq (by decide)
  exact spares_of_page (.inl rfl) ⟨by decide, by decide, by decide, by decide, by decide⟩ hpage
    hother

/-- The file `a` is uploaded and, over that history, downloaded twice. -/
theorem download_upload_small :
    ∃ s, (service storedZstd (smallJson 2 "2")).run
        (upload Config.shipped storedZstd (smallJson 2 "2") (smallIo 2) ⟨∅, .empty⟩
          smallUpload).server smallHistory = some s ∧
      (download Config.shipped storedZstd wholeDownload s smallDownload).replies =
        [{ reply 200 "Success" with body := smallTarget.content }] := by
  have hrun : ((service storedZstd (smallJson 2 "2")).run
      (upload Config.shipped storedZstd (smallJson 2 "2") (smallIo 2) ⟨∅, .empty⟩
        smallUpload).server smallHistory).isSome = true := by decide
  have hopen : FileSystem.creatable ∅ (Config.shipped.lowStorageDir ++ smallTarget.fileName) =
      true := by decide
  have hwhole : (storedBytes storedZstd smallTarget).length ≤ (smallIo 2).store.written := by
    decide
  have hname : PageName smallTarget.fileName :=
    ⟨by decide, by decide, by decide, by decide, by decide⟩
  have hes : (service storedZstd (smallJson 2 "2")).AllSteps
      (fun _ e => Spares smallTarget.fileName smallTarget.dir e)
      (upload Config.shipped storedZstd (smallJson 2 "2") (smallIo 2) ⟨∅, .empty⟩
        smallUpload).server smallHistory :=
    ⟨spares_otherUpload, fun _ _ => ⟨trivial, fun _ _ => trivial⟩⟩
  obtain ⟨s, hs⟩ := Option.isSome_iff_exists.mp hrun
  obtain ⟨fs, haccept⟩ := accepted_small
  refine ⟨s, hs, ?_⟩
  exact (download_upload_iff storedZstd_correct (reachable_empty _ _ _) hname hopen haccept hwhole
    hes hs encodes_smallDownload rfl wholeDownload_succeeds).mpr (.inl rfl)

/-- The frame of `hi`, uploaded into the deep directory under the name `low_storage`. -/
def frameUpload : Request where
  path := Bytes.ofString "/upload"
  body := some hiFrame
  fileName := some (Bytes.ofString "bG93X3N0b3JhZ2U=")
  storageType := some (Bytes.ofString "deep")
  ifRange := none

def frameTarget : UploadTarget where
  content := hiFrame
  dir := Config.shipped.deepStorageDir
  fileName := Bytes.ofString "low_storage"

def frameDownload : Request :=
  { smallDownload with path := Config.shipped.downloadPrefix ++ Bytes.ofString "low_storage" }

/-- JsonCpp for the table with the record of that upload only. -/
def frameJson : JsonCpp :=
  .single (DataManager.root [{
    mtime_ := 100
    atime_ := 100
    fsize_ := 11
    storage_path_ := frameTarget.path
    url_ := Config.shipped.downloadPrefix ++ frameTarget.fileName }])
    (Bytes.ofString ("[\n\t\x7b\n\t\t\"atime_\" : 100,\n\t\t\"fsize_\" : 11," ++
      "\n\t\t\"mtime_\" : 100,\n\t\t\"storage_path_\" : \"./deep_storage/low_storage\"," ++
      "\n\t\t\"url_\" : \"/download/low_storage\"\n\t\x7d\n]"))

/-- The upload is stored as it is, and the download sends the two bytes it unpacks to. -/
theorem download_not_upload :
    ¬∀ (z : Zstd) (lib : JsonCpp) (s s' : Server) (io : UploadIo) (req : Request)
      (t : UploadTarget) (fs : FileSystem) (es : List Event) (dio : DownloadIo) (dreq : Request),
      z.Correct → (service z lib).ReachableBy (fun _ e => FromPage e) s → PageName t.fileName →
      s.fs.creatable (Config.shipped.lowStorageDir ++ t.fileName) = true →
      Accepted Config.shipped z io s req t fs → (storedBytes z t).length ≤ io.store.written →
      (service z lib).AllSteps (fun _ e => FromPage e ∧ ¬Uploads t.fileName e)
        (upload Config.shipped z lib io s req).server es →
      (service z lib).run (upload Config.shipped z lib io s req).server es = some s' →
      Encodes dreq.path (Config.shipped.downloadPrefix ++ t.fileName) → dreq.ifRange = none →
      dio.Succeeds →
      (download Config.shipped z dio s' dreq).replies =
        [{ reply 200 "Success" with body := t.content }] := by
  have hreply : (download Config.shipped hiZstd wholeDownload
      (upload Config.shipped hiZstd frameJson (smallIo 11) ⟨∅, .empty⟩ frameUpload).server
      frameDownload).replies ≠ [{ reply 200 "Success" with body := frameTarget.content }] := by
    decide
  have hname : PageName frameTarget.fileName :=
    ⟨by decide, by decide, by decide, by decide, by decide⟩
  have hopen : FileSystem.creatable ∅ (Config.shipped.lowStorageDir ++ frameTarget.fileName) =
      true := by decide
  have hmade : (FileUtil.createDirectory ∅ frameTarget.dir false).isSome = true := by decide
  have hstore : ∀ fs, FileUtil.createDirectory ∅ frameTarget.dir false = some fs →
      (storeUpload hiZstd fs frameTarget (smallIo 11).store).1 = true := by
    intro fs hfs
    cases hfs
    decide
  have hwhole : (storedBytes hiZstd frameTarget).length ≤ (smallIo 11).store.written := by decide
  have hself : 37 ∉ frameDownload.path := by decide
  obtain ⟨fs, hfs⟩ := Option.isSome_iff_exists.mp hmade
  have haccept : Accepted Config.shipped hiZstd (smallIo 11) ⟨∅, .empty⟩ frameUpload frameTarget
      fs := ⟨rfl, hfs, by decide, hstore fs hfs, rfl⟩
  -- downloaded at once, with no history in between
  intro h
  exact hreply (h hiZstd frameJson ⟨∅, .empty⟩ _ (smallIo 11) frameUpload frameTarget fs []
    wholeDownload frameDownload hiZstd_correct (reachable_empty _ _ _) hname hopen haccept hwhole
    trivial rfl (encodes_self hself) rfl wholeDownload_succeeds)

end Storage
