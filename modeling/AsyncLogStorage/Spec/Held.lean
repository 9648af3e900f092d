import AsyncLogStorage.ForStd.Transition
import AsyncLogStorage.Spec.Download

/-!
# What the server keeps of an upload

What a page uploaded under a name stays where it is as long as no other upload goes to the
same places or under the same url, whatever is downloaded meanwhile: the record, the stored
bytes and the path to which a download unpacks them.

## Key results

- `spares_of_page`: uploads of other names that a page sends spare an upload
- `held_of_upload`: what an accepted upload leaves
- `step_held` / `run_held`: the requests that spare it keep it
-/

namespace Storage

open Path (Place)
open Service

/-! ## Runs -/

/-- A record of a file of that name stands under the url of the name. -/
def OnlyUrl (name : Bytes) (table : Table) : Prop :=
  ∀ url info, table.lookup url = some info → lastName info.storage_path_ = name →
    url = Config.shipped.downloadPrefix ++ name

/-- An upload of a file of that name hides nothing of its own name behind a NUL. -/
def Shows (name : Bytes) : Event → Prop
  | .upload io req => ∀ t, uploadTarget Config.shipped io req = .ok t →
      lastName t.path = name → FileUtil.fileName t.path = name
  | .download _ _ => True

/-- The request uploads no other file of that name, and writes neither the file in the
    directory nor the one in the low directory to which a download unpacks it. -/
def Spares (name dir : Bytes) : Event → Prop
  | .upload io req => ∀ t, uploadTarget Config.shipped io req = .ok t →
      lastName t.path ≠ name ∧ Apart (dir ++ name) t.path ∧
        Apart (Config.shipped.lowStorageDir ++ name) t.path
  | .download _ _ => True

theorem shows_of_spares {name dir : Bytes} {e : Event} (h : Spares name dir e) :
    Shows name e := by
  cases e with
  | upload io req => exact fun t htarget hlast => absurd hlast (h t htarget).1
  | download io req => trivial

/-- An upload, if it gets as far as a path, has a name that a page sends. -/
def FromPage : Event → Prop
  | .upload io req => ∀ t, uploadTarget Config.shipped io req = .ok t → PageName t.fileName
  | .download _ _ => True

/-- The request is an upload of that name. -/
def Uploads (name : Bytes) : Event → Prop
  | .upload io req => ∃ t, uploadTarget Config.shipped io req = .ok t ∧ t.fileName = name
  | .download _ _ => False

theorem pageDir_of_storageDir {storageType dir : Bytes}
    (h : storageDir Config.shipped storageType = some dir) : PageDir dir := by
  obtain ⟨-, hlow⟩ | ⟨-, hdeep⟩ := storageDir_cases h
  · exact .inl hlow
  · exact .inr hdeep

theorem pageDir_of_target {io : UploadIo} {req : Request} {t : UploadTarget}
    (h : uploadTarget Config.shipped io req = .ok t) : PageDir t.dir := by
  obtain ⟨-, -, -, -, -, storageType, -, hdir⟩ := uploadTarget_ok.mp h
  exact pageDir_of_storageDir hdir

/-- An upload from a page spares every other name. -/
theorem spares_of_page {name dir : Bytes} {e : Event} (hdir : PageDir dir) (hname : PageName name)
    (hpage : FromPage e) (hother : ¬Uploads name e) : Spares name dir e := by
  cases e with
  | upload io req =>
    intro t htarget
    have hname' := hpage t htarget
    have hdir' := pageDir_of_target htarget
    have hne : name ≠ t.fileName := fun heq => hother ⟨t, htarget, heq.symm⟩
    refine ⟨?_, page_apart hdir hname hdir' hname' (.inr hne),
      page_apart (.inl rfl) hname hdir' hname' (.inr hne)⟩
    rw [show lastName t.path = t.fileName from lastName_page hdir' hname']
    exact Ne.symm hne
  | download io req => trivial

/-- The server under `Storage.conf`, from any files and any table in which the records stand
    under the urls of their files' names. A request that ends in an exception or a failed
    assertion ends the server. -/
def service (z : Zstd) (lib : JsonCpp) : Transition Server Event where
  init s := ∀ name, OnlyUrl name s.table
  step s e :=
    let out := handle Config.shipped z lib s e
    match out.exit with
    | .returned => some out.server
    | _ => none

theorem service_step {z : Zstd} {lib : JsonCpp} {s s' : Server} {e : Event} :
    (service z lib).step s e = some s' ↔ (handle Config.shipped z lib s e).exit = .returned ∧
      (handle Config.shipped z lib s e).server = s' := by
  simp only [service]
  cases (handle Config.shipped z lib s e).exit with
  | returned => simp
  | threw => simp
  | aborted => simp

/-! ## Frames -/

section
variable {fs fs' : FileSystem} {name dir path : Bytes}

/-- From `fs` to `fs'` a file at the path stays as it is, and the path stays openable. -/
structure Keeps (fs fs' : FileSystem) (path : Bytes) : Prop where
  file : ∀ f, FileUtil.fileAt fs path = some f → FileUtil.fileAt fs' path = some f
  openable : fs.creatable path = true → fs'.creatable path = true

theorem Keeps.refl (fs : FileSystem) (path : Bytes) : Keeps fs fs path :=
  ⟨fun _ h => h, fun h => h⟩

theorem Keeps.trans {fs'' : FileSystem} (h : Keeps fs fs' path) (h' : Keeps fs' fs'' path) :
    Keeps fs fs'' path :=
  ⟨fun f hf => h'.file f (h.file f hf), fun hc => h'.openable (h.openable hc)⟩

theorem keeps_createDirectory {dir' : Bytes} {throws : Bool} (hdir : PageDir dir)
    (hname : PageName name) (hdir' : PageDir dir')
    (h : FileUtil.createDirectory fs dir' throws = some fs') : Keeps fs fs' (dir ++ name) := by
  constructor
  · intro f hf
    rw [fileAt_createDirectory h, hf]
  · exact creatable_createDirectory h (page_not_mem_withAncestors hdir hname hdir')

theorem keeps_store {other : Bytes} (content : Bytes) (time : Int) (hapart : Apart path other)
    (hother : fs.creatable other = true) :
    Keeps fs (fs.store (resolve other) content time) path := by
  obtain ⟨hne, hbelow, habove⟩ := hapart
  constructor
  · intro f hf
    rw [FileSystem.fileAt_store_ne content time hother hne, hf]
  · exact FileSystem.creatable_store content time hbelow habove

/-- The write of the storage file. -/
theorem keeps_storage {lib : JsonCpp} {table : Table} {order : HashOrder} {io : WriteOutcome}
    (hdir : PageDir dir) (hname : PageName name) :
    Keeps fs (DataManager.storage Config.shipped lib fs table order io).2 (dir ++ name) := by
  simp only [DataManager.storage]
  obtain hsame | ⟨hopen, written, hstored⟩ := setContent_cases fs Config.shipped.storageInfo
    (DataManager.storageText lib (DataManager.getAll table order)) io
  · rw [hsame]
    exact Keeps.refl _ _
  · rw [hstored]
    exact keeps_store _ _ (storageInfo_apart hdir hname) hopen

end

/-! ## Uploads -/

/-- What the server keeps of an upload: the record, the stored bytes, and a path in the low
    directory to which a download can unpack them. -/
structure Held (name dir stored : Bytes) (s : Server) : Prop where
  record : ∃ info, s.table.lookup (Config.shipped.downloadPrefix ++ name) = some info ∧
    info.storage_path_ = dir ++ name
  file : ∃ f, FileUtil.fileAt s.fs (dir ++ name) = some f ∧ f.content = stored
  openable : s.fs.creatable (Config.shipped.lowStorageDir ++ name) = true

section
variable {z : Zstd} {lib : JsonCpp} {s : Server} {io : UploadIo} {req : Request}
  {t : UploadTarget} {fs : FileSystem}

variable (lib) in
/-- The record of an accepted upload goes under the url of what its path ends in. -/
theorem table_upload (h : Accepted Config.shipped z io s req t fs) :
    ∃ info, info.url_ = Config.shipped.downloadPrefix ++ FileUtil.fileName t.path ∧
      info.storage_path_ = t.path ∧
      (upload Config.shipped z lib io s req).server.table = s.table.insert info :=
  ⟨_, rfl, rfl, by rw [upload_of_accepted h]⟩

/-- Files of the name stay under its url if the upload shows its name. -/
theorem onlyUrl_upload {name : Bytes} (htable : OnlyUrl name s.table)
    (hshows : Shows name (.upload io req))
    (hreturned : (upload Config.shipped z lib io s req).exit = .returned) :
    OnlyUrl name (upload Config.shipped z lib io s req).server.table := by
  by_cases h : ∃ t fs, Accepted Config.shipped z io s req t fs
  · obtain ⟨t, fs, h⟩ := h
    obtain ⟨info, hurl, hpath, hinsert⟩ := table_upload lib h
    rw [hinsert]
    intro url found hfound hlast
    -- the new record, or one that was there
    by_cases heq : url = info.url_
    · rw [heq, Table.lookup_insert] at hfound
      cases hfound
      rw [hpath] at hlast
      rw [heq, hurl, hshows t h.target hlast]
    · rw [Table.lookup_insert_ne s.table heq] at hfound
      exact htable url found hfound hlast
  · obtain ⟨-, hthrew⟩ | ⟨-, hsame, -⟩ :=
      upload_of_not_accepted lib fun t fs h' => h ⟨t, fs, h'⟩
    · rw [hthrew] at hreturned
      cases hreturned
    · rw [hsame]
      exact htable

/-- After an accepted upload whose bytes were all written the server holds it. -/
theorem held_of_upload (hname : PageName t.fileName)
    (hopen : s.fs.creatable (Config.shipped.lowStorageDir ++ t.fileName) = true)
    (h : Accepted Config.shipped z io s req t fs)
    (hwhole : (storedBytes z t).length ≤ io.store.written) :
    Held t.fileName t.dir (storedBytes z t) (upload Config.shipped z lib io s req).server := by
  have hdir := pageDir_of_target h.target
  have hlow : PageDir Config.shipped.lowStorageDir := .inl rfl
  constructor
  · obtain ⟨info, hurl, hpath, hinsert⟩ := table_upload lib h
    have hfile : FileUtil.fileName t.path = t.fileName := fileName_page hdir hname
    refine ⟨info, ?_, hpath⟩
    rw [hinsert, ← hfile, ← hurl, Table.lookup_insert]
  · refine ⟨storedFile z s.fs t io.store, ?_, List.take_of_length_le hwhole⟩
    rw [upload_of_accepted h]
    exact (keeps_storage hdir hname).file _ h.fileAt
  · rw [upload_of_accepted h]
    apply (keeps_storage hlow hname).openable
    have hbelow := not_isBelow_page hlow hname hdir hname
    have habove := not_isBelow_page hdir hname hlow hname
    apply FileSystem.creatable_store _ _ habove hbelow
    exact (keeps_createDirectory hlow hname hdir h.directory).openable hopen

/-- An upload keeps what is at a page name if its own path is apart from it. -/
theorem keeps_upload {name dir : Bytes} (hname : PageName name) (hdir : PageDir dir)
    (hapart : ∀ t, uploadTarget Config.shipped io req = .ok t → Apart (dir ++ name) t.path)
    (hreturned : (upload Config.shipped z lib io s req).exit = .returned) :
    Keeps s.fs (upload Config.shipped z lib io s req).server.fs (dir ++ name) := by
  by_cases h : ∃ t fs, Accepted Config.shipped z io s req t fs
  · obtain ⟨t, fs, h⟩ := h
    obtain ⟨-, hcreatable, -⟩ := storeUpload_fst.mp h.store
    have hmade := keeps_createDirectory hdir hname (pageDir_of_target h.target) h.directory
    rw [upload_of_accepted h]
    -- the directory, the uploaded file, the storage file
    exact (hmade.trans (keeps_store _ _ (hapart t h.target) hcreatable)).trans
      (keeps_storage hdir hname)
  · obtain ⟨-, hthrew⟩ | ⟨-, -, hfs⟩ :=
      upload_of_not_accepted lib fun t fs h' => h ⟨t, fs, h'⟩
    · rw [hthrew] at hreturned
      cases hreturned
    · obtain hsame | ⟨t, htarget, hmade⟩ := hfs
      · rw [hsame]
        exact Keeps.refl _ _
      · exact keeps_createDirectory hdir hname (pageDir_of_target htarget) hmade

/-- It keeps the record of the name if its path ends in another one. -/
theorem lookup_upload_ne {name : Bytes} (hname : PageName name)
    (hlast : ∀ t, uploadTarget Config.shipped io req = .ok t → lastName t.path ≠ name)
    (hreturned : (upload Config.shipped z lib io s req).exit = .returned) :
    (upload Config.shipped z lib io s req).server.table.lookup
        (Config.shipped.downloadPrefix ++ name) =
      s.table.lookup (Config.shipped.downloadPrefix ++ name) := by
  by_cases h : ∃ t fs, Accepted Config.shipped z io s req t fs
  · obtain ⟨t, fs, h⟩ := h
    obtain ⟨info, hurl, -, hinsert⟩ := table_upload lib h
    rw [hinsert]
    -- its url would end in the name
    apply Table.lookup_insert_ne
    rw [hurl]
    intro heq
    apply hlast t h.target
    rw [lastName, ← List.append_cancel_left heq, Bytes.cstr_eq_self.mpr hname.nul]
  · obtain ⟨-, hthrew⟩ | ⟨-, hsame, -⟩ :=
      upload_of_not_accepted lib fun t fs h' => h ⟨t, fs, h'⟩
    · rw [hthrew] at hreturned
      cases hreturned
    · rw [hsame]

end

/-! ## Downloads -/

section
variable {z : Zstd} {s : Server} {io : DownloadIo} {req : Request} {name dir stored : Bytes}

/-- A transit file that can be written is apart from a page name, unless both are in the low
    directory and have the same name. -/
theorem apart_transit {info : StorageInfo} (hdir : PageDir dir) (hname : PageName name)
    (hother : dir ≠ Config.shipped.lowStorageDir ∨ name ≠ lastName info.storage_path_)
    (hfile : namesFile (transitPath Config.shipped info) = true) :
    Apart (dir ++ name) (transitPath Config.shipped info) := by
  have hlow : PageDir Config.shipped.lowStorageDir := .inl rfl
  have hlast : PageName (lastName info.storage_path_) := pageName_of_namesFile hlow hfile
  have hapart := page_apart hdir hname hlow hlast hother
  unfold Apart at hapart ⊢
  rw [transitPath, resolve_append_fileName hlow]
  exact hapart

/-- Writing a transit file leaves the page names in the low directory openable. -/
theorem creatable_transit {fs : FileSystem} {info : StorageInfo} (content : Bytes) (time : Int)
    (hname : PageName name) (hcreatable : fs.creatable (transitPath Config.shipped info) = true)
    (h : fs.creatable (Config.shipped.lowStorageDir ++ name) = true) :
    (fs.store (resolve (transitPath Config.shipped info)) content time).creatable
      (Config.shipped.lowStorageDir ++ name) = true := by
  have hlow : PageDir Config.shipped.lowStorageDir := .inl rfl
  obtain ⟨hfile, -⟩ := FileSystem.creatable_iff.mp hcreatable
  have hlast : PageName (lastName info.storage_path_) := pageName_of_namesFile hlow hfile
  rw [transitPath, resolve_append_fileName hlow]
  exact FileSystem.creatable_store _ _ (not_isBelow_page hlow hlast hlow hname)
    (not_isBelow_page hlow hname hlow hlast) h

/-- A download keeps what the server holds of an upload, be it a download of that upload
    or of another one. -/
theorem held_download (htable : OnlyUrl name s.table) (hname : PageName name) (hdir : PageDir dir)
    (hheld : Held name dir stored s)
    (hreturned : (download Config.shipped z io s req).exit = .returned) :
    Held name dir stored (download Config.shipped z io s req).server := by
  obtain ⟨info, hlookup, hpath⟩ := hheld.record
  obtain ⟨f, hf, hcontent⟩ := hheld.file
  have hlowDir : PageDir Config.shipped.lowStorageDir := .inl rfl
  obtain ⟨hsame, url, -, hfs | ⟨hlow, fs₁, fs₂, hmade, hfs₂, hremoved⟩⟩ :=
    download_effect hreturned
  · -- it was sent from where it is
    refine ⟨⟨info, by rw [hsame, hlookup], hpath⟩, ⟨f, by rw [hfs, hf], hcontent⟩, ?_⟩
    rw [hfs]
    exact hheld.openable
  · have hother : dir ≠ Config.shipped.lowStorageDir ∨
        name ≠ lastName (downloadInfo io s url).storage_path_ := by
      apply Classical.or_iff_not_imp_right.mpr
      intro hlast
      have hlast := Classical.not_not.mp hlast
      rintro rfl
      -- the record would be that of the upload, which is in the low directory
      obtain hfound | hempty := downloadInfo_cases io s url
      · have hurl := htable url _ hfound hlast.symm
        have hown : info = downloadInfo io s url := by
          apply Option.some.inj
          rw [← hlookup, ← hurl, hfound]
        rw [← hown, hpath, (contains_lowStorageDir hlowDir hname).mpr rfl] at hlow
        cases hlow
      · rw [hempty] at hlast
        exact hname.nonempty hlast
    -- the file through the three steps
    have hmadeKeeps := keeps_createDirectory hdir hname hlowDir hmade
    have hstoreKeeps : Keeps fs₁ fs₂ (dir ++ name) := by
      obtain rfl | ⟨hcreatable, written, rfl⟩ := hfs₂
      · exact Keeps.refl _ _
      · obtain ⟨hfile, -⟩ := FileSystem.creatable_iff.mp hcreatable
        exact keeps_store _ _ (apart_transit hdir hname hother hfile) hcreatable
    have hkept := (hmadeKeeps.trans hstoreKeeps).file f hf
    -- and the path in the low directory
    have hmadeOpen := (keeps_createDirectory hlowDir hname hlowDir hmade).openable hheld.openable
    have hopen : fs₂.creatable (Config.shipped.lowStorageDir ++ name) = true := by
      obtain rfl | ⟨hcreatable, written, rfl⟩ := hfs₂
      · exact hmadeOpen
      · exact creatable_transit _ _ hname hcreatable hmadeOpen
    -- and through the removal, if there is one
    refine ⟨⟨info, by rw [hsame, hlookup], hpath⟩, ⟨f, ?_, hcontent⟩, ?_⟩
    · obtain hfs | hfs := hremoved
      · rw [hfs, hkept]
      · rw [hfs]
        exact FileSystem.fileAt_remove
          (fun hfile => (apart_transit hdir hname hother hfile).1) hkept
    · obtain hfs | hfs := hremoved
      · rw [hfs, hopen]
      · rw [hfs]
        exact FileSystem.creatable_remove _ hopen

/-- A download leaves the table. -/
theorem onlyUrl_download (htable : OnlyUrl name s.table)
    (hreturned : (download Config.shipped z io s req).exit = .returned) :
    OnlyUrl name (download Config.shipped z io s req).server.table := by
  rw [(download_effect hreturned).1]
  exact htable

end

/-! ## Runs of the server -/

section
variable {z : Zstd} {lib : JsonCpp} {name dir stored : Bytes}

theorem step_onlyUrl {s s' : Server} {e : Event} (htable : OnlyUrl name s.table)
    (hshows : Shows name e) (hstep : (service z lib).step s e = some s') :
    OnlyUrl name s'.table := by
  obtain ⟨hreturned, rfl⟩ := service_step.mp hstep
  cases e with
  | upload io req => exact onlyUrl_upload htable hshows hreturned
  | download io req => exact onlyUrl_download htable hreturned

/-- No request that spares an upload touches what the server holds of it. -/
theorem step_held {s s' : Server} {e : Event} (hname : PageName name) (hdir : PageDir dir)
    (htable : OnlyUrl name s.table) (hheld : Held name dir stored s) (hspares : Spares name dir e)
    (hstep : (service z lib).step s e = some s') : Held name dir stored s' := by
  obtain ⟨hreturned, rfl⟩ := service_step.mp hstep
  cases e with
  | upload io req =>
    obtain ⟨info, hlookup, hpath⟩ := hheld.record
    obtain ⟨f, hf, hcontent⟩ := hheld.file
    have hlast := fun t htarget => (hspares t htarget).1
    have hapart := fun t htarget => (hspares t htarget).2.1
    have hapartLow := fun t htarget => (hspares t htarget).2.2
    constructor
    · refine ⟨info, ?_, hpath⟩
      exact (lookup_upload_ne hname hlast hreturned).trans hlookup
    · refine ⟨f, ?_, hcontent⟩
      exact (keeps_upload hname hdir hapart hreturned).file f hf
    · exact (keeps_upload hname (.inl rfl) hapartLow hreturned).openable hheld.openable
  | download io req => exact held_download htable hname hdir hheld hreturned

/-- So a run of such requests keeps it. -/
theorem run_held {s s' : Server} {es : List Event} (hname : PageName name) (hdir : PageDir dir)
    (htable : OnlyUrl name s.table) (hheld : Held name dir stored s)
    (hes : (service z lib).AllSteps (fun _ e => Spares name dir e) s es)
    (hrun : (service z lib).run s es = some s') : Held name dir stored s' := by
  refine (Transition.run_invariant (I := fun s => OnlyUrl name s.table ∧ Held name dir stored s)
    ?_ ⟨htable, hheld⟩ hes hrun).2
  intro s e s' ⟨htable, hheld⟩ hspares hstep
  exact ⟨step_onlyUrl htable (shows_of_spares hspares) hstep,
    step_held hname hdir htable hheld hspares hstep⟩

end

end Storage
