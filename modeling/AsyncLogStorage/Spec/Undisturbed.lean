import AsyncLogStorage.Spec.Held

/-!
# Requests leave other files alone

Under `Storage.conf`, with the names that a page sends, every record of the table stands under
the url of its file's name, and its path is one of the two places of that name. So the url
determines where a request may write, and a download, which unpacks into the low directory,
meets no stored file there.

## Key results

- `step_coherent`: the requests keep that invariant
- `step_undisturbed` / `run_undisturbed`: they leave the records and files of other urls
-/

namespace Storage

open Path (Place)
open Service

/-- Every record stands under the url of a name and leads to a file of that name. -/
def Coherent (table : Table) : Prop :=
  ∀ url info, table.lookup url = some info → ∃ dir name, PageDir dir ∧ PageName name ∧
    info.storage_path_ = dir ++ name ∧ url = Config.shipped.downloadPrefix ++ name

/-- An upload has a name without slashes and without a NUL. -/
def Plain : Event → Prop
  | .upload io req => ∀ t, uploadTarget Config.shipped io req = .ok t →
      47 ∉ t.fileName ∧ 0 ∉ t.fileName
  | .download _ _ => True

/-- The request is an upload to that url. -/
def UploadsTo (url : Bytes) : Event → Prop
  | .upload io req => ∃ t, uploadTarget Config.shipped io req = .ok t ∧
      url = Config.shipped.downloadPrefix ++ t.fileName
  | .download _ _ => False

/-- The server under `Storage.conf`, from any files and any coherent table. -/
def pageService (z : Zstd) (lib : JsonCpp) : Transition Server Event where
  init s := Coherent s.table
  step := (service z lib).step

/-- The contents of the file at a path. -/
def contentAt (fs : FileSystem) (path : Bytes) : Option Bytes :=
  (FileUtil.fileAt fs path).map File.content

/-! ## Uploads -/

section
variable {z : Zstd} {lib : JsonCpp} {s : Server} {io : UploadIo} {req : Request}
  {t : UploadTarget} {fs : FileSystem} {name dir : Bytes}

/-- A plain name that was accepted is a page name. -/
theorem pageName_of_accepted (hslash : 47 ∉ t.fileName) (hnul : 0 ∉ t.fileName)
    (h : Accepted Config.shipped z io s req t fs) : PageName t.fileName := by
  have hdir := pageDir_of_target h.target
  obtain ⟨-, hcreatable, -⟩ := storeUpload_fst.mp h.store
  obtain ⟨hfile, -⟩ := FileSystem.creatable_iff.mp hcreatable
  have hlast : FileUtil.fileName t.path = t.fileName := fileName_append hdir.slash hslash
  have hpage : PageName (lastName t.path) := by
    apply pageName_of_namesFile hdir
    rw [hlast]
    exact hfile
  rwa [lastName, hlast, Bytes.cstr_eq_self.mpr hnul] at hpage

/-- The storage file is no page name. -/
theorem fileAt_storage_page {table : Table} {order : HashOrder} {write : WriteOutcome}
    (hdir : PageDir dir) (hname : PageName name) :
    FileUtil.fileAt (DataManager.storage Config.shipped lib fs table order write).2 (dir ++ name) =
      FileUtil.fileAt fs (dir ++ name) := by
  simp only [DataManager.storage]
  obtain hsame | ⟨hopen, written, hstored⟩ := setContent_cases fs Config.shipped.storageInfo
    (DataManager.storageText lib (DataManager.getAll table order)) write
  · rw [hsame]
  · rw [hstored]
    exact FileSystem.fileAt_store_ne _ _ hopen (storageInfo_apart hdir hname).1

/-- An upload writes no page name but its own. -/
theorem fileAt_upload_page (hdir : PageDir dir) (hname : PageName name)
    (hother : ∀ t, uploadTarget Config.shipped io req = .ok t → name ≠ t.fileName)
    (hplain : Plain (.upload io req))
    (hreturned : (upload Config.shipped z lib io s req).exit = .returned) :
    FileUtil.fileAt (upload Config.shipped z lib io s req).server.fs (dir ++ name) =
      FileUtil.fileAt s.fs (dir ++ name) := by
  by_cases h : ∃ t fs, Accepted Config.shipped z io s req t fs
  · obtain ⟨t, fs, h⟩ := h
    obtain ⟨-, hcreatable, -⟩ := storeUpload_fst.mp h.store
    obtain ⟨hslash, hnul⟩ := hplain t h.target
    have hapart : Apart (dir ++ name) t.path := page_apart hdir hname (pageDir_of_target h.target)
      (pageName_of_accepted hslash hnul h) (.inr (hother t h.target))
    rw [upload_of_accepted h]
    -- the storage file, the uploaded file, the directory
    simp only [fileAt_storage_page hdir hname, writtenFs]
    rw [FileSystem.fileAt_store_ne _ _ hcreatable hapart.1, fileAt_createDirectory h.directory]
  · obtain ⟨-, hthrew⟩ | ⟨-, -, hfs⟩ :=
      upload_of_not_accepted lib fun t fs h' => h ⟨t, fs, h'⟩
    · rw [hthrew] at hreturned
      cases hreturned
    · obtain hsame | ⟨t, -, hmade⟩ := hfs
      · rw [hsame]
      · exact fileAt_createDirectory hmade

/-- An upload inserts a record of its own place under its own url, or leaves the table. -/
theorem table_upload_plain (hplain : Plain (.upload io req))
    (hreturned : (upload Config.shipped z lib io s req).exit = .returned) :
    (upload Config.shipped z lib io s req).server.table = s.table ∨
    ∃ t info, uploadTarget Config.shipped io req = .ok t ∧ PageDir t.dir ∧ PageName t.fileName ∧
      info.url_ = Config.shipped.downloadPrefix ++ t.fileName ∧ info.storage_path_ = t.path ∧
      (upload Config.shipped z lib io s req).server.table = s.table.insert info := by
  by_cases h : ∃ t fs, Accepted Config.shipped z io s req t fs
  · obtain ⟨t, fs, h⟩ := h
    have hdir := pageDir_of_target h.target
    obtain ⟨hslash, hnul⟩ := hplain t h.target
    obtain ⟨info, hurl, hpath, hinsert⟩ := table_upload lib h
    have hfile : FileUtil.fileName t.path = t.fileName := fileName_append hdir.slash hslash
    rw [hfile] at hurl
    exact .inr ⟨t, info, h.target, hdir, pageName_of_accepted hslash hnul h, hurl, hpath, hinsert⟩
  · obtain ⟨-, hthrew⟩ | ⟨-, hsame, -⟩ :=
      upload_of_not_accepted lib fun t fs h' => h ⟨t, fs, h'⟩
    · rw [hthrew] at hreturned
      cases hreturned
    · exact .inl hsame

end

/-! ## Downloads -/

section
variable {z : Zstd} {s : Server} {io : DownloadIo} {req : Request} {name dir url : Bytes}
  {info : StorageInfo}

/-- A transit path is neither at nor above the place of a file of the table. -/
theorem transit_apart (hcoherent : Coherent s.table) (hlookup : s.table.lookup url = some info)
    {resource : Bytes} (hdeep : (downloadInfo io s resource).storage_path_.contains
      Config.shipped.lowStorageDir = false) :
    resolve info.storage_path_ ≠ resolve (transitPath Config.shipped (downloadInfo io s resource)) ∧
    isBelow (resolve (transitPath Config.shipped (downloadInfo io s resource)))
      (resolve info.storage_path_) = false := by
  have hlow : PageDir Config.shipped.lowStorageDir := .inl rfl
  obtain ⟨dir, name, hdir, hname, hpath, hurl⟩ := hcoherent url info hlookup
  rw [hpath]
  obtain hfound | hempty := downloadInfo_cases io s resource
  · obtain ⟨dir', name', hdir', hname', hpath', hurl'⟩ := hcoherent resource _ hfound
    have htransit : transitPath Config.shipped (downloadInfo io s resource) =
        Config.shipped.lowStorageDir ++ name' := by
      rw [transitPath, hpath', fileName_page hdir' hname']
    have hne : dir ≠ Config.shipped.lowStorageDir ∨ name ≠ name' := by
      apply Classical.or_iff_not_imp_right.mpr
      intro hsame
      have hsame := Classical.not_not.mp hsame
      rintro rfl
      -- the same name has the same url, so this is the record that is not in the low directory
      have heq : url = resource := by rw [hurl, hurl', hsame]
      rw [heq, hfound] at hlookup
      cases hlookup
      rw [hpath, (contains_lowStorageDir hdir hname).mpr rfl] at hdeep
      cases hdeep
    rw [htransit]
    exact ⟨(page_apart hdir hname hlow hname' hne).1, not_isBelow_page hlow hname' hdir hname⟩
  · -- the low directory itself
    have htransit : transitPath Config.shipped (downloadInfo io s resource) =
        Config.shipped.lowStorageDir := by
      rw [transitPath, hempty]
      exact List.append_nil _
    have hplace : resolve Config.shipped.lowStorageDir =
        { rooted := false, ups := 0, names := [Bytes.ofString "low_storage"] } := by decide
    obtain ⟨d, -, hd⟩ := names_page hdir hname
    rw [htransit, hd, hplace]
    exact ⟨by simp, by simp [isBelow]⟩

/-- A download leaves every file of the table, its own one included. -/
theorem fileAt_download_of_coherent (hcoherent : Coherent s.table)
    (hlookup : s.table.lookup url = some info)
    (hreturned : (download Config.shipped z io s req).exit = .returned) :
    FileUtil.fileAt (download Config.shipped z io s req).server.fs info.storage_path_ =
      FileUtil.fileAt s.fs info.storage_path_ := by
  obtain ⟨-, resource, -, hfs | ⟨hdeep, fs₁, fs₂, hmade, hfs₂, hremoved⟩⟩ :=
    download_effect hreturned
  · rw [hfs]
  · obtain ⟨hne, hbelow⟩ := transit_apart hcoherent hlookup hdeep
    -- the directory, the transit file, its removal
    have hstored : FileUtil.fileAt fs₂ info.storage_path_ =
        FileUtil.fileAt s.fs info.storage_path_ := by
      rw [← fileAt_createDirectory hmade]
      obtain rfl | ⟨hcreatable, written, rfl⟩ := hfs₂
      · rfl
      · exact FileSystem.fileAt_store_ne _ _ hcreatable hne
    obtain hfs | hfs := hremoved
    · rw [hfs, hstored]
    · rw [hfs, FileSystem.fileAt_remove_of_apart hne hbelow, hstored]

end

/-! ## Runs of the server -/

section
variable {z : Zstd} {lib : JsonCpp} {s s' : Server} {e : Event}

/-- Every request keeps the table coherent. -/
theorem step_coherent (hcoherent : Coherent s.table) (hplain : Plain e)
    (hstep : (service z lib).step s e = some s') : Coherent s'.table := by
  obtain ⟨hreturned, rfl⟩ := service_step.mp hstep
  cases e with
  | download io req =>
    show Coherent (download Config.shipped z io s req).server.table
    rw [(download_effect hreturned).1]
    exact hcoherent
  | upload io req =>
    show Coherent (upload Config.shipped z lib io s req).server.table
    obtain hsame | ⟨t, info, -, hdir, hname, hurl, hpath, hinsert⟩ :=
      table_upload_plain hplain hreturned
    · rw [hsame]
      exact hcoherent
    · rw [hinsert]
      intro url found hfound
      by_cases heq : url = info.url_
      · rw [heq, Table.lookup_insert] at hfound
        cases hfound
        exact ⟨t.dir, t.fileName, hdir, hname, hpath, by rw [heq, hurl]⟩
      · rw [Table.lookup_insert_ne s.table heq] at hfound
        exact hcoherent url found hfound

/-- A request leaves the record and the file of every url that it does not upload to. -/
theorem step_undisturbed (hcoherent : Coherent s.table) (hplain : Plain e)
    (hstep : (service z lib).step s e = some s') {url : Bytes} {info : StorageInfo}
    (hlookup : s.table.lookup url = some info) (hother : ¬UploadsTo url e) :
    s'.table.lookup url = some info ∧
      contentAt s'.fs info.storage_path_ = contentAt s.fs info.storage_path_ := by
  obtain ⟨hreturned, rfl⟩ := service_step.mp hstep
  unfold contentAt
  cases e with
  | download io req =>
    have hsame : (download Config.shipped z io s req).server.table = s.table :=
      (download_effect hreturned).1
    exact ⟨hsame ▸ hlookup,
      congrArg _ (fileAt_download_of_coherent hcoherent hlookup hreturned)⟩
  | upload io req =>
    obtain ⟨dir, name, hdir, hname, hpath, hurl⟩ := hcoherent url info hlookup
    have hne : ∀ t, uploadTarget Config.shipped io req = .ok t → name ≠ t.fileName := by
      rintro t htarget rfl
      exact hother ⟨t, htarget, hurl⟩
    constructor
    · show (upload Config.shipped z lib io s req).server.table.lookup url = some info
      obtain hsame | ⟨t, record, htarget, -, -, hurl', -, hinsert⟩ :=
        table_upload_plain hplain hreturned
      · rw [hsame, hlookup]
      · have hdiffer : url ≠ record.url_ := by
          rw [hurl, hurl']
          intro heq
          exact hne t htarget (List.append_cancel_left heq)
        rw [hinsert, Table.lookup_insert_ne s.table hdiffer, hlookup]
    · rw [hpath]
      exact congrArg _ (fileAt_upload_page hdir hname hne hplain hreturned)

theorem reachable_coherent (hreach : (pageService z lib).ReachableBy (fun _ e => Plain e) s) :
    Coherent s.table := by
  refine Transition.ReachableBy.invariant (I := fun s => Coherent s.table) (fun s h => h) ?_ hreach
  intro s e s' hcoherent hplain (hstep : (service z lib).step s e = some s')
  exact step_coherent hcoherent hplain hstep

end

/-- After any history of plain uploads and of downloads, a request leaves the record of every url
    that it does not upload to, and the contents of its file. A download uploads to none. -/
theorem reachable_undisturbed {z : Zstd} {lib : JsonCpp} {s s' : Server} {e : Event}
    (hreach : (pageService z lib).ReachableBy (fun _ e => Plain e) s) (hplain : Plain e)
    (hstep : (pageService z lib).step s e = some s') {url : Bytes} {info : StorageInfo}
    (hlookup : s.table.lookup url = some info) (hother : ¬UploadsTo url e) :
    s'.table.lookup url = some info ∧
      contentAt s'.fs info.storage_path_ = contentAt s.fs info.storage_path_ :=
  step_undisturbed (reachable_coherent hreach) hplain hstep hlookup hother

/-- So does a whole history without an upload to the url. -/
theorem run_undisturbed {z : Zstd} {lib : JsonCpp} {s s' : Server} {es : List Event}
    (hcoherent : Coherent s.table) {url : Bytes} {info : StorageInfo}
    (hlookup : s.table.lookup url = some info)
    (hes : (pageService z lib).AllSteps (fun _ e => Plain e ∧ ¬UploadsTo url e) s es)
    (hrun : (pageService z lib).run s es = some s') :
    s'.table.lookup url = some info ∧
      contentAt s'.fs info.storage_path_ = contentAt s.fs info.storage_path_ := by
  refine (Transition.run_invariant (I := fun s' => Coherent s'.table ∧
    s'.table.lookup url = some info ∧
    contentAt s'.fs info.storage_path_ = contentAt s.fs info.storage_path_)
    ?_ ⟨hcoherent, hlookup, rfl⟩ hes hrun).2
  rintro s₁ e s₂ ⟨hcoherent, hlookup, hcontent⟩ ⟨hplain, hother⟩ hstep
  obtain ⟨hlookup', hcontent'⟩ := step_undisturbed hcoherent hplain hstep hlookup hother
  exact ⟨step_coherent hcoherent hplain hstep, hlookup', hcontent'.trans hcontent⟩

theorem coherent_empty : Coherent Table.empty := by
  intro url info h
  rw [Table.lookup_empty] at h
  cases h

/-- An empty server can be given any upload with a plain name. -/
theorem reachable_upload {z : Zstd} {lib : JsonCpp} {io : UploadIo} {req : Request}
    (hplain : Plain (.upload io req))
    (hreturned : (upload Config.shipped z lib io ⟨∅, .empty⟩ req).exit = .returned) :
    (pageService z lib).ReachableBy (fun _ e => Plain e)
      (upload Config.shipped z lib io ⟨∅, .empty⟩ req).server := by
  have hstep : (pageService z lib).step ⟨∅, .empty⟩ (.upload io req) =
      some (upload Config.shipped z lib io ⟨∅, .empty⟩ req).server :=
    service_step.mpr ⟨hreturned, rfl⟩
  have hrun : (pageService z lib).run ⟨∅, .empty⟩ [.upload io req] =
      some (upload Config.shipped z lib io ⟨∅, .empty⟩ req).server := by
    rw [Transition.run_cons, hstep]
    rfl
  exact ⟨⟨∅, .empty⟩, [.upload io req], coherent_empty, ⟨hplain, fun _ _ => trivial⟩, hrun⟩

/-- The file `a`, uploaded into the deep directory. -/
def deepUpload : Request := { smallUpload with storageType := some (Bytes.ofString "deep") }

def deepUploaded : Server :=
  (upload Config.shipped storedZstd silentJson (smallIo 2) ⟨∅, .empty⟩ deepUpload).server

/-- Its download leaves it. -/
theorem reachable_undisturbed_small :
    ∃ info, deepUploaded.table.lookup (Config.shipped.downloadPrefix ++ Bytes.ofString "a") =
        some info ∧
      (download Config.shipped storedZstd wholeDownload deepUploaded
        smallDownload).server.table.lookup
          (Config.shipped.downloadPrefix ++ Bytes.ofString "a") = some info ∧
      contentAt (download Config.shipped storedZstd wholeDownload deepUploaded
        smallDownload).server.fs info.storage_path_ =
        contentAt deepUploaded.fs info.storage_path_ := by
  have hplain : Plain (.upload (smallIo 2) deepUpload) := by
    intro t htarget
    cases htarget
    exact ⟨by decide, by decide⟩
  have hreach : (pageService storedZstd silentJson).ReachableBy (fun _ e => Plain e) deepUploaded :=
    reachable_upload hplain (by decide)
  have hlookup : (deepUploaded.table.lookup
      (Config.shipped.downloadPrefix ++ Bytes.ofString "a")).isSome = true := by decide
  have hreturned : (download Config.shipped storedZstd wholeDownload deepUploaded
      smallDownload).exit = .returned := by decide
  have hstep : (service storedZstd silentJson).step deepUploaded
      (.download wholeDownload smallDownload) = some (download Config.shipped storedZstd
        wholeDownload deepUploaded smallDownload).server := service_step.mpr ⟨hreturned, rfl⟩
  have hdownload : Plain (.download wholeDownload smallDownload) := trivial
  obtain ⟨info, hinfo⟩ := Option.isSome_iff_exists.mp hlookup
  exact ⟨info, hinfo, reachable_undisturbed hreach hdownload hstep hinfo id⟩

end Storage
