import AsyncLogStorage.Spec.Download

/-!
# The storage class of a file

Five places of the handlers ask whether a file is deep or low. `Upload` chooses the directory
by the header and compresses by the literal `low_storage`, `Download` goes by the configured
low directory, the list page by the literal `deep`, and the url is routed by the literal
`/download/`. All but the first search a path, and the user's file name is part of it.

## Key results

- `classified_iff`: when the five places agree
- `Classified.handled`: what the handlers then do with the file
-/

namespace Storage

open Service

section
variable {cfg : Config} {z : Zstd} {t : UploadTarget}

/-! ## What the handlers go by -/

/-- `Upload` compresses the content. -/
def Compresses (t : UploadTarget) : Prop := ¬Bytes.ofString "low_storage" <:+: t.path

/-- `Download` decompresses the stored file. -/
def Decompresses (cfg : Config) (info : StorageInfo) : Prop :=
  ¬cfg.lowStorageDir <:+: info.storage_path_

theorem storeUpload_of_compresses (h : Compresses t) (fs : FileSystem) (io : WriteOutcome) :
    storeUpload z fs t io = FileUtil.compress z fs t.path t.content io :=
  if_neg (mt Bytes.contains_iff.mp h)

theorem storeUpload_of_not_compresses (h : ¬Compresses t) (fs : FileSystem) (io : WriteOutcome) :
    storeUpload z fs t io = FileUtil.setContent fs t.path t.content io :=
  if_pos (Bytes.contains_iff.mpr (not_not.mp h))

/-- A file that is not decompressed is sent as it is. -/
theorem prepareDownload_of_not_decompresses {info : StorageInfo} (h : ¬Decompresses cfg info)
    (fs : FileSystem) (io : DownloadIo) :
    prepareDownload cfg z fs info io = (fs, some info.storage_path_) :=
  if_pos (Bytes.contains_iff.mpr (not_not.mp h))

/-- Any other one goes through `UnCompress`, unless there is an exception. -/
theorem prepareDownload_of_decompresses {info : StorageInfo} (h : Decompresses cfg info)
    {fs fs' : FileSystem} {io : DownloadIo} {path : Bytes} :
    prepareDownload cfg z fs info io = (fs', some path) ↔ path = transitPath cfg info ∧
      ∃ fs₁ ok, FileUtil.createDirectory fs cfg.lowStorageDir io.mkdirThrows = some fs₁ ∧
        FileUtil.unCompress z fs₁ info.storage_path_ path io.statOk io.read io.store =
          some (ok, fs') := by
  have hdeep : info.storage_path_.contains cfg.lowStorageDir = false := by
    simpa using mt Bytes.contains_iff.mp h
  rw [prepareDownload_eq_some]
  simp [hdeep]

theorem listedStorageType_eq_deep {info : StorageInfo} :
    listedStorageType info = Bytes.ofString "deep" ↔
      Bytes.ofString "deep" <:+: info.storage_path_ := by
  have hne : Bytes.ofString "low" ≠ Bytes.ofString "deep" := by decide
  unfold listedStorageType
  rw [← Bytes.contains_iff]
  split
  · rename_i h
    simp [h]
  · rename_i h
    simp [h, hne]

theorem route_eq_download {path : Bytes} :
    route path = .download ↔ Bytes.ofString "/download/" <:+: path := by
  unfold route
  rw [← Bytes.contains_iff]
  split
  · rename_i h
    simp [h]
  · rename_i h
    simp only [h, Bool.false_eq_true, iff_false]
    split
    · simp
    · split <;> simp

/-! ## Agreement -/

/-- The places agree on an upload of that storage type and on the record of its file. -/
structure Classified (cfg : Config) (storageType : Bytes) (t : UploadTarget) (info : StorageInfo) :
    Prop where
  compress : Compresses t ↔ storageType = Bytes.ofString "deep"
  decompress : Decompresses cfg info ↔ Compresses t
  list : listedStorageType info = Bytes.ofString "deep" ↔ storageType = Bytes.ofString "deep"
  route : route info.url_ = .download

/-- Where the places agree, a deep file is compressed and goes through `UnCompress`, unless there
    is an exception, and any other one is stored and sent as it is. -/
theorem Classified.handled {storageType : Bytes} {info : StorageInfo}
    (h : Classified cfg storageType t info) (fs : FileSystem) (store : WriteOutcome)
    (io : DownloadIo) :
    if storageType = Bytes.ofString "deep" then
      storeUpload z fs t store = FileUtil.compress z fs t.path t.content store ∧
      ∀ fs' path, prepareDownload cfg z fs info io = (fs', some path) ↔
        path = transitPath cfg info ∧
        ∃ fs₁ ok, FileUtil.createDirectory fs cfg.lowStorageDir io.mkdirThrows = some fs₁ ∧
          FileUtil.unCompress z fs₁ info.storage_path_ path io.statOk io.read io.store =
            some (ok, fs')
    else
      storeUpload z fs t store = FileUtil.setContent fs t.path t.content store ∧
      prepareDownload cfg z fs info io = (fs, some info.storage_path_) := by
  split
  · rename_i htype
    have hcompress := h.compress.mpr htype
    refine ⟨storeUpload_of_compresses hcompress fs store, fun fs' path => ?_⟩
    exact prepareDownload_of_decompresses (h.decompress.mpr hcompress)
  · rename_i htype
    have hcompress := mt h.compress.mp htype
    refine ⟨storeUpload_of_not_compresses hcompress fs store, ?_⟩
    exact prepareDownload_of_not_decompresses (mt h.decompress.mp hcompress) fs io

/-- The directories end in a slash, and neither contains the other. -/
structure Config.DirsApart (cfg : Config) : Prop where
  low_slash : cfg.lowStorageDir.getLast? = some 47
  deep_slash : cfg.deepStorageDir.getLast? = some 47
  low_deep : ¬cfg.lowStorageDir <:+: cfg.deepStorageDir
  deep_low : ¬cfg.deepStorageDir <:+: cfg.lowStorageDir

/-- `word` is in the directory or in the file name. -/
def Mentions (dir name : Bytes) (word : String) : Prop :=
  Bytes.ofString word <:+: dir ∨ Bytes.ofString word <:+: name

/-- A word without a slash does not reach over the end of the directory. -/
theorem infix_append_iff_mentions {dir name : Bytes} {word : String}
    (hdir : dir.getLast? = some 47) (hword : 47 ∉ Bytes.ofString word) :
    Bytes.ofString word <:+: dir ++ name ↔ Mentions dir name word := by
  obtain ⟨init, rfl⟩ := Path.exists_of_getLast?_slash hdir
  have hinit : Bytes.ofString word <:+: init ++ [47] ↔ Bytes.ofString word <:+: init := by
    rw [List.infix_append_cons_iff hword]
    constructor
    · rintro (h | h)
      · exact h
      · -- only the empty word is in the empty string
        rw [List.eq_nil_of_infix_nil h]
        exact List.nil_infix
    · exact .inl
  rw [Mentions, hinit, List.append_assoc, List.singleton_append, List.infix_append_cons_iff hword]

/-- A file in the low directory is not decompressed, and one in the deep directory is. -/
theorem decompresses_iff (hcfg : cfg.DirsApart) (hname : 47 ∉ t.fileName) {storageType : Bytes}
    (hdir : storageDir cfg storageType = some t.dir) {info : StorageInfo}
    (hinfo : info.storage_path_ = t.path) :
    Decompresses cfg info ↔ storageType = Bytes.ofString "deep" := by
  have hne : Bytes.ofString "low" ≠ Bytes.ofString "deep" := by decide
  unfold Decompresses
  rw [hinfo, UploadTarget.path]
  obtain ⟨rfl, hlow⟩ | ⟨rfl, hdeep⟩ := storageDir_cases hdir
  · rw [hlow]
    exact iff_of_false (not_not.mpr (List.prefix_append _ _).isInfix) hne
  · rw [hdeep]
    refine iff_of_true (fun h => hcfg.low_deep ?_) rfl
    exact List.infix_of_infix_append hcfg.low_slash hname h

end

/-- The five places agree on an upload and its record exactly if the download prefix contains
    `/download/`, and the directory and the name mention `deep` but not `low_storage` for a deep
    file, and `low_storage` but not `deep` for a low one. -/
theorem classified_iff {cfg : Config} (hcfg : cfg.DirsApart) {storageType : Bytes}
    {t : UploadTarget} (hdir : storageDir cfg storageType = some t.dir) (hname : 47 ∉ t.fileName)
    (f : File) (io : StatOutcome) :
    Classified cfg storageType t (.recorded cfg t.path f io) ↔
      Bytes.ofString "/download/" <:+: cfg.downloadPrefix ∧
      if storageType = Bytes.ofString "deep" then
        Mentions t.dir t.fileName "deep" ∧ ¬Mentions t.dir t.fileName "low_storage"
      else Mentions t.dir t.fileName "low_storage" ∧ ¬Mentions t.dir t.fileName "deep" := by
  have hslash : t.dir.getLast? = some 47 := by
    obtain ⟨-, hlow⟩ | ⟨-, hdeep⟩ := storageDir_cases hdir
    · rw [hlow]
      exact hcfg.low_slash
    · rw [hdeep]
      exact hcfg.deep_slash
  have hlow : Compresses t ↔ ¬Mentions t.dir t.fileName "low_storage" :=
    not_congr (infix_append_iff_mentions hslash (by decide))
  have hdeep : listedStorageType (.recorded cfg t.path f io) = Bytes.ofString "deep" ↔
      Mentions t.dir t.fileName "deep" :=
    listedStorageType_eq_deep.trans (infix_append_iff_mentions hslash (by decide))
  have hdecompress := decompresses_iff hcfg hname hdir
    (show (StorageInfo.recorded cfg t.path f io).storage_path_ = t.path from rfl)
  have hroute : route (StorageInfo.recorded cfg t.path f io).url_ = .download ↔
      Bytes.ofString "/download/" <:+: cfg.downloadPrefix := by
    have hurl : (StorageInfo.recorded cfg t.path f io).url_ = cfg.downloadPrefix ++ t.fileName := by
      simp only [StorageInfo.recorded, UploadTarget.path, fileName_append hslash hname]
    rw [route_eq_download, hurl]
    constructor
    · exact List.infix_of_infix_append (by decide) hname
    · intro h
      exact h.trans (List.prefix_append _ _).isInfix
  constructor
  · intro h
    refine ⟨hroute.mp h.route, ?_⟩
    have hcompress := h.compress
    have hlist := h.list
    rw [hlow] at hcompress
    rw [hdeep] at hlist
    split
    · rename_i htype
      exact ⟨hlist.mpr htype, hcompress.mpr htype⟩
    · rename_i htype
      exact ⟨not_not.mp (mt hcompress.mp htype), mt hlist.mp htype⟩
  · rintro ⟨hfound, hmentions⟩
    have hclass : (Compresses t ↔ storageType = Bytes.ofString "deep") ∧
        (listedStorageType (.recorded cfg t.path f io) = Bytes.ofString "deep" ↔
          storageType = Bytes.ofString "deep") := by
      rw [hlow, hdeep]
      split at hmentions
      · rename_i htype
        simp [htype, hmentions]
      · rename_i htype
        simp [htype, hmentions]
    exact ⟨hclass.1, hdecompress.trans hclass.1.symm, hclass.2, hroute.mpr hfound⟩

theorem Config.shipped_dirsApart : Config.shipped.DirsApart :=
  ⟨by decide, by decide, by decide, by decide⟩

/-- The file `a` in the low directory. -/
theorem classified_small : Classified Config.shipped (Bytes.ofString "low") smallTarget
    (.recorded Config.shipped smallTarget.path ⟨smallTarget.content, 100, 100⟩
      (smallIo 2).stat) := by
  have hroute : Bytes.ofString "/download/" <:+: Config.shipped.downloadPrefix := by decide
  have hne : Bytes.ofString "low" ≠ Bytes.ofString "deep" := by decide
  have hlow : Mentions smallTarget.dir smallTarget.fileName "low_storage" := .inl (by decide)
  have hdeep : ¬Mentions smallTarget.dir smallTarget.fileName "deep" :=
    not_or.mpr ⟨by decide, by decide⟩
  apply (classified_iff Config.shipped_dirsApart rfl (by decide) _ _).mpr
  rw [if_neg hne]
  exact ⟨hroute, hlow, hdeep⟩

/-- A deep file by the name of `low_storage` is not compressed. -/
theorem not_classified :
    ¬∀ (cfg : Config) (storageType : Bytes) (t : UploadTarget) (f : File) (io : StatOutcome),
      cfg.DirsApart → storageDir cfg storageType = some t.dir → 47 ∉ t.fileName →
      0 ∉ t.fileName → Classified cfg storageType t (.recorded cfg t.path f io) := by
  intro h
  have hclassified := h Config.shipped (Bytes.ofString "deep")
    { content := [0]
      dir := Config.shipped.deepStorageDir
      fileName := Bytes.ofString "low_storage" }
    ⟨[0], 100, 100⟩ (smallIo 1).stat Config.shipped_dirsApart rfl (by decide) (by decide)
  have hinfix : Bytes.ofString "low_storage" <:+:
      Config.shipped.deepStorageDir ++ Bytes.ofString "low_storage" := by decide
  exact hclassified.compress.mpr rfl hinfix

end Storage
