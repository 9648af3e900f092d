import AsyncLogStorage.Spec.Upload

/-!
# The file that an upload opens

`Upload` appends the decoded `FileName` header to the directory of the storage type and
opens the result. Nothing takes the last component of the name or refuses a slash, so a
name with `..` in it leads out of the directory.

## Key results

- `upload_confined_iff`: for which names it is always a direct child of the directory
-/

namespace Storage

open Path (Place)
open Service

/-- The directories end in a slash, as those of `Storage.conf`, and hold no NUL. -/
structure Config.DirsWf (cfg : Config) : Prop where
  low_slash : cfg.lowStorageDir.getLast? = some 47
  deep_slash : cfg.deepStorageDir.getLast? = some 47
  low_nul : 0 ∉ cfg.lowStorageDir
  deep_nul : 0 ∉ cfg.deepStorageDir

theorem Config.shipped_dirsWf : Config.shipped.DirsWf :=
  ⟨by decide, by decide, by decide, by decide⟩

theorem Config.DirsWf.storageDir {cfg : Config} (h : cfg.DirsWf) {storageType dir : Bytes}
    (hdir : storageDir cfg storageType = some dir) : dir.getLast? = some 47 ∧ 0 ∉ dir := by
  obtain ⟨-, rfl⟩ | ⟨-, rfl⟩ := storageDir_cases hdir
  · exact ⟨h.low_slash, h.low_nul⟩
  · exact ⟨h.deep_slash, h.deep_nul⟩

/-! ## Where it lies -/

/-- The path lies directly below the directory. -/
def DirectChild (path dir : Bytes) : Prop := ∃ name, resolve path = (resolve dir).child name

/-- The name goes up some levels and comes back down the same ones to a single component. -/
def StaysInside (dir name : Bytes) : Prop :=
  let walk := Place.here.walk (Path.components name.cstr)
  let depth := (resolve dir).names.length
  ((resolve dir).rooted = true ∨ walk.ups ≤ depth) ∧
    ∃ last, walk.names = (resolve dir).names.drop (depth - walk.ups) ++ [last]

/-- The name ends in a slash, `.` or `..`, or it leads to the directory itself or to one
    above it: no file can be opened there. -/
def NamesNoFile (dir name : Bytes) : Prop :=
  namesFile name = false ∨
    let walk := Place.here.walk (Path.components name.cstr)
    let depth := (resolve dir).names.length
    ((resolve dir).rooted = true ∨ walk.ups ≤ depth) ∧
      walk.names <+: (resolve dir).names.drop (depth - walk.ups)

section
variable {dir : Bytes} (name : Bytes) (hslash : dir.getLast? = some 47) (hnul : 0 ∉ dir)
include hslash hnul

theorem directChild_append_iff : DirectChild (dir ++ name) dir ↔ StaysInside dir name := by
  simp only [DirectChild, resolve_append name hslash hnul, Place.climb_descend_eq_child_iff,
    StaysInside, exists_and_left]

/-- The place of a file is not the start of a path. -/
theorem resolve_append_ne_nil (hname : namesFile name = true) :
    (resolve (dir ++ name)).names ≠ [] := by
  have hlast := namesFile_append name hslash hnul
  rw [hname] at hlast
  -- the last step of the walk goes down
  unfold namesFile at hlast
  split at hlast
  · rename_i last hcomp
    obtain ⟨q, hq⟩ := Place.exists_walk_eq_child
      (p := if (dir ++ name).cstr.head? = some 47 then Place.root else Place.here) hcomp
    rw [resolve, Path.normalise, hq]
    simp [Place.child, Place.descend]
  · cases hlast

/-- The name leads to the directory or above it. -/
theorem leadsBack_iff : (resolve (dir ++ name) = resolve dir ∨
      isBelow (resolve dir) (resolve (dir ++ name)) = true) ↔
    ((resolve dir).rooted = true ∨
      (Place.here.walk (Path.components name.cstr)).ups ≤ (resolve dir).names.length) ∧
    (Place.here.walk (Path.components name.cstr)).names <+:
      (resolve dir).names.drop ((resolve dir).names.length -
        (Place.here.walk (Path.components name.cstr)).ups) := by
  rw [← Place.climb_descend_prefix_iff, ← resolve_append name hslash hnul, FileSystem.isBelow_iff]
  have hrooted : (resolve (dir ++ name)).rooted = (resolve dir).rooted := by
    rw [resolve_append name hslash hnul]
    rfl
  generalize resolve (dir ++ name) = p at *
  -- on the way to the directory, or with as many names at the directory itself
  constructor
  · rintro (rfl | ⟨-, hu, hp, -⟩)
    · exact ⟨rfl, List.prefix_refl _⟩
    · exact ⟨hu.symm, hp⟩
  · rintro ⟨hu, hp⟩
    by_cases hlen : p.names.length < (resolve dir).names.length
    · exact .inr ⟨hrooted.symm, hu.symm, hp, hlen⟩
    · left
      have heq := hp.eq_of_length_le (by omega)
      cases p
      cases hd : resolve dir
      simp_all

end

/-! ## Confinement -/

/-- For the headers of an upload, whatever else it meets, the file it opens lies directly
    below the directory of its storage type. -/
def Confined (cfg : Config) (storageType header : Bytes) : Prop :=
  ∀ (z : Zstd) (lib : JsonCpp) (io : UploadIo) (s : Server) (req : Request) (path : Bytes),
    req.fileName = some header → req.storageType = some storageType →
    (upload cfg z lib io s req).opened = some path →
    ∃ dir, storageDir cfg storageType = some dir ∧ DirectChild path dir

/-- A directory that was made sure of is one. -/
theorem createDirectory_spec {fs fs' : FileSystem} {dir : Bytes} {throws : Bool}
    (h : FileUtil.createDirectory fs dir throws = some fs') (hslash : dir.getLast? = some 47)
    (hnul : 0 ∉ dir) : fs'.isDirectory (resolve dir) = true := by
  obtain ⟨hfound, rfl⟩ | hmkdirs := createDirectory_cases h
  · -- a path that ends in a slash is found as a directory only
    obtain ⟨node, hnode⟩ := Option.isSome_iff_exists.mp hfound
    cases node with
    | directory => exact (FileSystem.find_eq_directory.mp hnode).2
    | file f =>
      have hname := (FileSystem.find_eq_file.mp hnode).1
      have hnil : namesFile (dir ++ []) = namesFile [] := namesFile_append [] hslash hnul
      rw [List.append_nil] at hnil
      rw [hnil] at hname
      cases hname
  · exact (FileSystem.mkdirs_spec hmkdirs).1

/-- The system without a file that an upload of one byte meets at its best. -/
def bestIo : UploadIo where
  copies := true
  mkdirThrows := false
  store := { opens := true, written := 1, time := 0 }
  stat := { existsThrows := false, accessOk := true, modifyOk := true, sizeOk := true }
  order := .held
  persist := { opens := true, written := 0, time := 0 }
  uninit := (0, 0, 0)

/-- In an empty file system making sure of a directory adds the places on the way to it. -/
private theorem exists_createDirectory_empty {dir : Bytes} (hne : dir.cstr ≠ []) :
    ∃ fs, FileUtil.createDirectory ∅ dir false = some fs ∧
      ∀ k node, fs.lookup k = some node → k ∈ withAncestors (resolve dir) ∧ node = .directory := by
  have hempty : ∀ k node, (∅ : FileSystem).lookup k = some node → False := by
    intro k node h
    rw [AList.lookup_empty] at h
    exact nomatch h
  -- nothing is in the way
  have hfree : FileSystem.anyFile ∅ (withAncestors (resolve dir)) = false := by
    apply List.any_eq_false.mpr
    intro k _
    rw [AList.lookup_empty]
    nofun
  obtain ⟨fs, hfs⟩ := exists_createDirectory hne hfree
  refine ⟨fs, hfs, fun k node h => ?_⟩
  obtain ⟨-, rfl⟩ | hmkdirs := createDirectory_cases hfs
  · exact (hempty k node h).elim
  · obtain hsame | ⟨hmem, hdir⟩ := (FileSystem.mkdirs_spec hmkdirs).2.1 k
    · rw [hsame] at h
      exact (hempty k node h).elim
    · rw [hdir] at h
      cases h
      exact ⟨hmem, rfl⟩

/-- Without a file in the way, a name that may name a file is opened. -/
private theorem exists_opened {cfg : Config} {storageType header dir name : Bytes}
    (hdir : storageDir cfg storageType = some dir) (hslash : dir.getLast? = some 47)
    (hnul : 0 ∉ dir) (hname : Base64.base64Decode header = some name)
    (hfile : ¬NamesNoFile dir name) :
    (upload cfg storedZstd silentJson bestIo ⟨∅, .empty⟩
      { path := [], body := some [0], fileName := some header, storageType := some storageType,
        ifRange := none }).opened = some (dir ++ name) := by
  obtain ⟨hnames, hback⟩ := not_or.mp hfile
  have hnames : namesFile name = true := by simpa using hnames
  have hback := mt (leadsBack_iff name hslash hnul).mp hback
  obtain ⟨hne, hnotBelow⟩ := not_or.mp hback
  have hcstr : dir.cstr ≠ [] := by
    rw [Bytes.cstr_eq_self.mpr hnul]
    rintro rfl
    cases hslash
  obtain ⟨fs, hfs, honly⟩ := exists_createDirectory_empty hcstr
  apply upload_opened.mpr
  have hfits : storeThrows storedZstd { content := [0], dir := dir, fileName := name } = false := by
    have hpacks : ZstdWrapper.packThrows storedZstd [0] = false := by decide
    simp [storeThrows, hpacks]
  refine ⟨{ content := [0], dir := dir, fileName := name }, fs, ?_, hfs, hfits, ?_, rfl⟩
  · apply uploadTarget_ok.mpr
    have hsize : ([0] : Bytes).length ≤ FileUtil.stringMaxSize :=
      Nat.le_trans (by decide) FileUtil.le_stringMaxSize
    exact ⟨rfl, nofun, hsize, rfl, ⟨header, rfl, hname⟩, ⟨storageType, rfl, hdir⟩⟩
  · apply storeUpload_fst.mpr
    have hpack : ZstdWrapper.pack storedZstd [0] ≠ [] := by decide
    refine ⟨.inr hpack, FileSystem.creatable_iff.mpr ⟨?_, ?_, ?_⟩, rfl⟩
    · rw [← hnames]
      exact namesFile_append name hslash hnul
    · -- only places on the way to the directory exist, and the file is none of them
      rw [← Bool.not_eq_true, FileSystem.isDirectory_iff]
      rintro (hnil | hplace | ⟨k, hk, hbelow⟩)
      · exact resolve_append_ne_nil name hslash hnul hnames hnil
      · obtain ⟨-, heq | hb⟩ := FileSystem.mem_withAncestors.mp (honly _ _ hplace).1
        · exact hne heq
        · exact hnotBelow hb
      · obtain ⟨node, hnode⟩ := Option.isSome_iff_exists.mp
          (AList.lookup_isSome.mpr (AList.mem_keys.mpr hk))
        obtain ⟨-, heq | hb⟩ := FileSystem.mem_withAncestors.mp (honly _ _ hnode).1
        · exact hnotBelow (heq ▸ hbelow)
        · exact hnotBelow (FileSystem.isBelow_trans hb hbelow)
    · -- there is no file at all
      apply List.any_eq_false.mpr
      intro k _ hk
      cases hlookup : fs.lookup k with
      | none => rw [hlookup] at hk; exact nomatch hk
      | some node =>
        rw [hlookup, (honly k node hlookup).2] at hk
        exact nomatch hk

/-- An upload stays inside the directory of its storage type exactly when its decoded name
    does, or names no file. -/
theorem upload_confined_iff (cfg : Config) (hcfg : cfg.DirsWf) (storageType : Bytes)
    {header name : Bytes} (hname : Base64.base64Decode header = some name) :
    Confined cfg storageType header ↔
      ∀ dir, storageDir cfg storageType = some dir →
        StaysInside dir name ∨ NamesNoFile dir name := by
  constructor
  · -- the request that opens the name in an empty file system
    intro hconfined dir hdir
    obtain ⟨hslash, hnul⟩ := hcfg.storageDir hdir
    by_cases hfile : NamesNoFile dir name
    · exact .inr hfile
    · left
      have hopened := exists_opened hdir hslash hnul hname hfile
      obtain ⟨dir', hdir', hchild⟩ := hconfined _ _ _ _ _ _ rfl rfl hopened
      rw [hdir] at hdir'
      cases hdir'
      exact (directChild_append_iff name hslash hnul).mp hchild
  · -- whatever is opened is the directory of the header with the name of the header
    intro hstays z lib io s req path hheader htype hopened
    obtain ⟨t, fs, htarget, hcreate, -, hstore, rfl⟩ := upload_opened.mp hopened
    obtain ⟨-, -, -, -, ⟨header', hheader', hdecode⟩, ⟨type', htype', hdir⟩⟩ :=
      uploadTarget_ok.mp htarget
    rw [hheader] at hheader'
    cases hheader'
    rw [htype] at htype'
    cases htype'
    rw [hname] at hdecode
    cases hdecode
    obtain ⟨hslash, hnul⟩ := hcfg.storageDir hdir
    refine ⟨t.dir, hdir, ?_⟩
    rcases hstays t.dir hdir with hinside | hnofile
    · exact (directChild_append_iff _ hslash hnul).mpr hinside
    · -- such a path cannot be opened
      exfalso
      obtain ⟨-, hcreatable, -⟩ := storeUpload_fst.mp hstore
      obtain ⟨hnames, hnotDir, -⟩ := FileSystem.creatable_iff.mp hcreatable
      have hdirectory := createDirectory_spec hcreate hslash hnul
      -- no file has such a name, or a directory is there
      rcases hnofile with hno | hback
      · have hsame : namesFile t.path = namesFile t.fileName :=
          namesFile_append t.fileName hslash hnul
        rw [hsame, hno] at hnames
        exact nomatch hnames
      · have hplace : t.path = t.dir ++ t.fileName := rfl
        rw [hplace] at hnotDir
        rcases (leadsBack_iff t.fileName hslash hnul).mpr hback with heq | hbelow
        · rw [heq, hdirectory] at hnotDir
          exact nomatch hnotDir
        · rw [FileSystem.isDirectory_of_isBelow hdirectory hbelow] at hnotDir
          exact nomatch hnotDir

/-- A plain name stays inside the directory that `Storage.conf` gives. -/
theorem upload_confined_plain :
    Confined Config.shipped (Bytes.ofString "low") (Bytes.ofString "YQ==") := by
  apply (upload_confined_iff Config.shipped Config.shipped_dirsWf (Bytes.ofString "low")
    (show Base64.base64Decode (Bytes.ofString "YQ==") = some (Bytes.ofString "a") by decide)).mpr
  intro dir hdir
  cases hdir
  exact .inl ⟨.inr (by decide), Bytes.ofString "a", by decide⟩

/-- The name `../index.html`. -/
theorem upload_not_confined :
    ¬∀ storageType header name : Bytes, Base64.base64Decode header = some name →
      Confined Config.shipped storageType header := by
  intro h
  have hconfined := h (Bytes.ofString "low") (Bytes.ofString "Li4vaW5kZXguaHRtbA==")
    (Bytes.ofString "../index.html") (by decide)
  obtain ⟨dir, hdir, place, hplace⟩ := hconfined storedZstd silentJson bestIo ⟨∅, .empty⟩
    { path := [], body := some [0], fileName := some (Bytes.ofString "Li4vaW5kZXguaHRtbA=="),
      storageType := some (Bytes.ofString "low"), ifRange := none }
    (Bytes.ofString "./low_storage/../index.html") rfl rfl (by decide)
  cases hdir
  -- the file is at the first level and a child of the directory at the second
  have hlength := congrArg (fun p => p.names.length) hplace
  have hpath : (resolve (Bytes.ofString "./low_storage/../index.html")).names.length = 1 := by
    decide
  have hdepth : (resolve Config.shipped.lowStorageDir).names.length = 1 := by decide
  simp only [Place.child, Place.descend, List.length_append, hpath, hdepth, List.length_singleton]
    at hlength
  omega

end Storage
