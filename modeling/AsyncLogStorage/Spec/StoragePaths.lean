import AsyncLogStorage.Spec.Undisturbed

/-!
# Looking a record up by its storage path

`GetOneByStoragePath` goes over a hash map and returns the first record of the path. The
url of a record is made from its path, so the records of one path replace one another
and the table never holds two of them. What the lookup finds is then decided by the
uploads alone.

## Key results

- `handle_records`: a request replaces what its record replaces, and nothing else
- `reachable_storagePaths`: urls and paths stay coherent, and the lookup finds the record of
  the latest upload to the path as long as it stands under its url
-/

namespace Storage

open Service

/-! ## The records of a history -/

/-- What an upload stores, and the directory it stores it in, if it gets as far. -/
def storedUpload (cfg : Config) (z : Zstd) (io : UploadIo) (s : Server) (req : Request) :
    Option (UploadTarget × FileSystem) :=
  match uploadTarget cfg io req with
  | .error _ => none
  | .ok t =>
    match FileUtil.createDirectory s.fs t.dir io.mkdirThrows with
    | none => none
    | some fs =>
      if !storeThrows z t && (storeUpload z fs t io.store).1 && !io.stat.existsThrows then
        some (t, fs)
      else
        none

/-- The record that a request makes of the file it stored. -/
def uploadRecord (cfg : Config) (z : Zstd) (s : Server) : Event → Option StorageInfo
  | .upload io req => (storedUpload cfg z io s req).map fun stored =>
      .recorded cfg stored.1.path (storedFile z s.fs stored.1 io.store) io.stat
  | .download _ _ => none

/-- A server that starts with an empty table, and the records its requests have made so far,
    the latest first. A request that ends in an exception or a failed assertion ends it. -/
def recordedUploads (cfg : Config) (z : Zstd) (lib : JsonCpp) :
    Transition (Server × List StorageInfo) Event where
  init start := start.1.table = .empty ∧ start.2 = []
  step state e :=
    let out := handle cfg z lib state.1 e
    if out.exit = .returned then
      some (out.server, (uploadRecord cfg z state.1 e).toList ++ state.2)
    else
      none

/-- The record of the latest upload to the path, unless it has been replaced under its url. -/
def standing (log : List StorageInfo) (path : Bytes) : Option StorageInfo :=
  (log.find? (·.storage_path_ == path)).filter fun info =>
    log.find? (·.url_ == info.url_) == some info

section
variable {cfg : Config} {z : Zstd} {lib : JsonCpp} {s : Server} {io : UploadIo} {req : Request}

theorem storedUpload_eq_some {t : UploadTarget} {fs : FileSystem} :
    storedUpload cfg z io s req = some (t, fs) ↔ Accepted cfg z io s req t fs := by
  unfold storedUpload
  constructor
  · intro h
    cases htarget : uploadTarget cfg io req with
    | error _ => simp [htarget] at h
    | ok t' =>
      simp only [htarget] at h
      cases hdir : FileUtil.createDirectory s.fs t'.dir io.mkdirThrows with
      | none => simp [hdir] at h
      | some fs' =>
        simp only [hdir, Option.ite_none_right_eq_some, Bool.and_eq_true, Bool.not_eq_true',
          Option.some.injEq, Prod.mk.injEq] at h
        obtain ⟨⟨⟨hfits, hstore⟩, hstat⟩, rfl, rfl⟩ := h
        exact ⟨htarget, hdir, hfits, hstore, hstat⟩
  · intro h
    simp [h.target, h.directory, h.fits, h.store, h.stat]

variable (lib) in
/-- A record is that of the file the upload opened, and its url is made from that path. -/
theorem uploadRecord_upload {info : StorageInfo}
    (h : uploadRecord cfg z s (.upload io req) = some info) :
    (upload cfg z lib io s req).opened = some info.storage_path_ ∧
      info.url_ = cfg.downloadPrefix ++ FileUtil.fileName info.storage_path_ ∧
      (upload cfg z lib io s req).server.table = s.table.insert info := by
  simp only [uploadRecord, Option.map_eq_some_iff] at h
  obtain ⟨⟨t, fs⟩, hstored, rfl⟩ := h
  rw [upload_of_accepted (storedUpload_eq_some.mp hstored)]
  exact ⟨rfl, rfl, rfl⟩

/-- A request replaces what its record replaces, and leaves the rest of the table. -/
theorem handle_records {e : Event} (hreturned : (handle cfg z lib s e).exit = .returned) :
    (handle cfg z lib s e).server.table =
      match uploadRecord cfg z s e with
      | some info => s.table.insert info
      | none => s.table := by
  cases e with
  | download io req => exact (download_effect hreturned).1
  | upload io req =>
    cases hrecord : uploadRecord cfg z s (.upload io req) with
    | some info => exact (uploadRecord_upload lib hrecord).2.2
    | none =>
      -- nothing was stored, so the upload was not accepted
      have hnot : ∀ t fs, ¬Accepted cfg z io s req t fs := by
        intro t fs haccepted
        simp [uploadRecord, storedUpload_eq_some.mpr haccepted] at hrecord
      obtain ⟨-, hthrew⟩ | ⟨-, htable, -⟩ := upload_of_not_accepted lib hnot
      · exact absurd (hthrew.symm.trans hreturned) (by decide)
      · exact htable

end

/-! ## The table and the records -/

/-- Under every url the table has the latest record of that url, and every record has the url
    of its path. -/
structure Tracks (cfg : Config) (table : Table) (log : List StorageInfo) : Prop where
  lookup : ∀ url, table.lookup url = log.find? (·.url_ == url)
  urls : ∀ info ∈ log, info.url_ = cfg.downloadPrefix ++ FileUtil.fileName info.storage_path_

theorem Tracks.empty (cfg : Config) : Tracks cfg .empty [] where
  lookup := fun url => Table.lookup_empty url
  urls := fun _ hmem => (List.not_mem_nil hmem).elim

section
variable {cfg : Config} {table : Table} {log : List StorageInfo}

theorem Tracks.insert (h : Tracks cfg table log) {info : StorageInfo}
    (hurl : info.url_ = cfg.downloadPrefix ++ FileUtil.fileName info.storage_path_) :
    Tracks cfg (table.insert info) (info :: log) := by
  constructor
  · intro url
    by_cases heq : url = info.url_
    · rw [heq, Table.lookup_insert]
      simp only [List.find?_cons, beq_self_eq_true]
    · have hne : (info.url_ == url) = false := beq_false_of_ne (Ne.symm heq)
      rw [Table.lookup_insert_ne table heq, h.lookup]
      simp only [List.find?_cons, hne]
  · intro other hmem
    obtain rfl | hmem := List.mem_cons.mp hmem
    · exact hurl
    · exact h.urls other hmem

/-- What the table holds has been recorded. -/
theorem Tracks.mem_of_lookup (h : Tracks cfg table log) {url : Bytes} {info : StorageInfo}
    (hlookup : table.lookup url = some info) : info ∈ log := by
  rw [h.lookup] at hlookup
  exact List.mem_of_find?_eq_some hlookup

/-- Where a record of the table lies decides its url. -/
theorem Tracks.url_of_lookup (h : Tracks cfg table log) {url : Bytes} {info : StorageInfo}
    (hlookup : table.lookup url = some info) :
    url = cfg.downloadPrefix ++ FileUtil.fileName info.storage_path_ := by
  rw [← Table.lookup_url hlookup]
  exact h.urls info (h.mem_of_lookup hlookup)

theorem Tracks.eq_of_path (h : Tracks cfg table log) {url url' : Bytes}
    {info info' : StorageInfo} (hlookup : table.lookup url = some info)
    (hlookup' : table.lookup url' = some info')
    (hpath : info.storage_path_ = info'.storage_path_) : url = url' ∧ info = info' := by
  have hurl : url = url' := by
    rw [h.url_of_lookup hlookup, h.url_of_lookup hlookup', hpath]
  rw [hurl] at hlookup
  exact ⟨hurl, Option.some.inj (hlookup.symm.trans hlookup')⟩

/-- The record that stands for a path is in the table. -/
theorem Tracks.lookup_of_standing (h : Tracks cfg table log) {path : Bytes} {info : StorageInfo}
    (hstanding : standing log path = some info) :
    info.storage_path_ = path ∧ table.lookup info.url_ = some info := by
  simp only [standing, Option.filter_eq_some_iff, beq_iff_eq] at hstanding
  obtain ⟨hlatest, hunder⟩ := hstanding
  have hpath := List.find?_some hlatest
  rw [beq_iff_eq] at hpath
  exact ⟨hpath, (h.lookup info.url_).trans hunder⟩

/-- And a record of the table stands for its path: whatever was stored there later would have
    replaced it. -/
theorem Tracks.standing_of_lookup (h : Tracks cfg table log) {url : Bytes} {info : StorageInfo}
    (hlookup : table.lookup url = some info) :
    standing log info.storage_path_ = some info := by
  have hunder : log.find? (·.url_ == info.url_) = some info := by
    rw [← h.lookup, Table.lookup_url hlookup]
    exact hlookup
  obtain ⟨-, newer, older, hlog, hnewer⟩ := List.find?_eq_some_iff_append.mp hunder
  -- a later record of the path has its url too
  have hlatest : log.find? (·.storage_path_ == info.storage_path_) = some info := by
    refine List.find?_eq_some_iff_append.mpr ⟨beq_self_eq_true _, newer, older, hlog, ?_⟩
    intro other hmem
    have hother : other ∈ log := hlog ▸ List.mem_append_left _ hmem
    have hapart := hnewer other hmem
    simp only [Bool.not_eq_true', beq_eq_false_iff_ne] at hapart ⊢
    intro hpath
    apply hapart
    rw [h.urls other hother, hpath, ← h.urls info (h.mem_of_lookup hlookup)]
  simp only [standing, hlatest, Option.filter_some, hunder, beq_self_eq_true, ↓reduceIte]

/-- Whatever the order of the iteration, the lookup finds the record that stands for the path. -/
theorem Tracks.getOneByStoragePath (h : Tracks cfg table log) (order : HashOrder) (path : Bytes)
    (given : StorageInfo) :
    DataManager.getOneByStoragePath table order path given =
      match standing log path with
      | some info => (true, info)
      | none => (false, given) := by
  have hmem : ∀ info, info ∈ order.apply table.records ↔ table.lookup info.url_ = some info :=
    fun info => (order.perm table.records).mem_iff.trans Table.mem_records
  unfold DataManager.getOneByStoragePath
  cases hfound : (order.apply table.records).find? (·.storage_path_ == path) with
  | some found =>
    have hpath := List.find?_some hfound
    rw [beq_iff_eq] at hpath
    have hlookup := (hmem found).mp (List.mem_of_find?_eq_some hfound)
    rw [← hpath, h.standing_of_lookup hlookup]
  | none =>
    cases hstanding : standing log path with
    | none => rfl
    | some info =>
      -- the record that stands would have been found
      obtain ⟨hpath, hlookup⟩ := h.lookup_of_standing hstanding
      have hmiss := List.find?_eq_none.mp hfound info ((hmem info).mpr hlookup)
      exact absurd (beq_iff_eq.mpr hpath) hmiss

end

/-! ## Histories -/

section
variable {cfg : Config} {z : Zstd} {lib : JsonCpp}

theorem recordedUploads_step {state state' : Server × List StorageInfo} {e : Event} :
    (recordedUploads cfg z lib).step state e = some state' ↔
      (handle cfg z lib state.1 e).exit = .returned ∧
        ((handle cfg z lib state.1 e).server,
          (uploadRecord cfg z state.1 e).toList ++ state.2) = state' := by
  simp only [recordedUploads, Option.ite_none_right_eq_some, Option.some.injEq]

theorem step_tracks {state state' : Server × List StorageInfo} {e : Event}
    (h : Tracks cfg state.1.table state.2)
    (hstep : (recordedUploads cfg z lib).step state e = some state') :
    Tracks cfg state'.1.table state'.2 := by
  obtain ⟨hreturned, rfl⟩ := recordedUploads_step.mp hstep
  show Tracks cfg (handle cfg z lib state.1 e).server.table _
  rw [handle_records hreturned]
  cases hrecord : uploadRecord cfg z state.1 e with
  | none => exact h
  | some info =>
    cases e with
    | download io req => cases hrecord
    | upload io req => exact h.insert (uploadRecord_upload lib hrecord).2.1

theorem reachable_tracks {s : Server} {log : List StorageInfo}
    (hreach : (recordedUploads cfg z lib).Reachable (s, log)) : Tracks cfg s.table log := by
  refine hreach.invariant (I := fun state => Tracks cfg state.1.table state.2) ?_ ?_
  · intro state hinit
    rw [hinit.1, hinit.2]
    exact Tracks.empty cfg
  · intro state e state' h hstep
    exact step_tracks h hstep

/-- After any history of requests under one configuration, every record stands under its url,
    which is that of its path; no two records share a path; and for every order of the hash map
    a path leads to the record of the latest upload to it, or nowhere if that record has been
    replaced under its url. -/
theorem reachable_storagePaths {s : Server} {log : List StorageInfo}
    (hreach : (recordedUploads cfg z lib).Reachable (s, log)) :
    (∀ url info, s.table.lookup url = some info →
      info.url_ = url ∧ url = cfg.downloadPrefix ++ FileUtil.fileName info.storage_path_) ∧
    (∀ url url' info info', s.table.lookup url = some info → s.table.lookup url' = some info' →
      info.storage_path_ = info'.storage_path_ → url = url') ∧
    ∀ order path given, DataManager.getOneByStoragePath s.table order path given =
      match standing log path with
      | some info => (true, info)
      | none => (false, given) := by
  have h := reachable_tracks hreach
  refine ⟨?_, ?_, h.getOneByStoragePath⟩
  · intro url info hlookup
    exact ⟨Table.lookup_url hlookup, h.url_of_lookup hlookup⟩
  · intro url url' info info' hlookup hlookup' hpath
    exact (h.eq_of_path hlookup hlookup' hpath).1

end

/-- The file `a`, uploaded into the low directory and then into the deep one, is found in the
    deep one only. -/
theorem reachable_storagePaths_moved :
    ∃ s log info, (recordedUploads Config.shipped storedZstd silentJson).run (⟨∅, .empty⟩, [])
        [.upload (smallIo 2) smallUpload, .upload (smallIo 2) deepUpload] = some (s, log) ∧
      info.storage_path_ = Bytes.ofString "./deep_storage/a" ∧
      ∀ order given,
        DataManager.getOneByStoragePath s.table order (Bytes.ofString "./deep_storage/a") given =
          (true, info) ∧
        DataManager.getOneByStoragePath s.table order (Bytes.ofString "./low_storage/a") given =
          (false, given) := by
  have hstanding : (((recordedUploads Config.shipped storedZstd silentJson).run (⟨∅, .empty⟩, [])
      [.upload (smallIo 2) smallUpload, .upload (smallIo 2) deepUpload]).map fun state =>
        ((standing state.2 (Bytes.ofString "./deep_storage/a")).map StorageInfo.storage_path_,
          standing state.2 (Bytes.ofString "./low_storage/a"))) =
      some (some (Bytes.ofString "./deep_storage/a"), none) := by decide +kernel
  obtain ⟨⟨s, log⟩, hrun, hpair⟩ := Option.map_eq_some_iff.mp hstanding
  obtain ⟨hdeep, hlow⟩ := Prod.mk.inj hpair
  obtain ⟨info, hinfo, hpath⟩ := Option.map_eq_some_iff.mp hdeep
  have hlookups := (reachable_storagePaths ⟨_, _, ⟨rfl, rfl⟩, hrun⟩).2.2
  refine ⟨s, log, info, hrun, hpath, fun order given => ⟨?_, ?_⟩⟩
  · rw [hlookups, hinfo]
  · rw [hlookups, hlow]

end Storage
