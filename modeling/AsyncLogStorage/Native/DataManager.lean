import AsyncLogStorage.Native.FileUtil
import AsyncLogStorage.Native.Json

/-!
# File records and their storage

`storage::Config` of `Config.hpp`, and `StorageInfo` and `DataManager` of
`DataManager.hpp`. The table is an `std::unordered_map` keyed by the url; the order in
which an iteration meets its elements is not specified, so every iteration comes with
its own order.
-/

namespace Storage

/-- The fields of `Config` that the handlers read. -/
structure Config where
  lowStorageDir : Bytes
  deepStorageDir : Bytes
  downloadPrefix : Bytes
  storageInfo : Bytes

/-- The values of `Storage.conf`. -/
def Config.shipped : Config where
  lowStorageDir := Bytes.ofString "./low_storage/"
  deepStorageDir := Bytes.ofString "./deep_storage/"
  downloadPrefix := Bytes.ofString "/download/"
  storageInfo := Bytes.ofString "./storage.data"

structure StorageInfo where
  mtime_ : Int
  atime_ : Int
  fsize_ : Nat
  storage_path_ : Bytes
  url_ : Bytes
deriving DecidableEq, Repr

/-- What `NewStorageInfo` meets: whether `fs::exists` throws, and which calls of `stat`
    succeed. -/
structure StatOutcome where
  existsThrows : Bool
  accessOk : Bool
  modifyOk : Bool
  sizeOk : Bool
deriving DecidableEq, Repr

/-- `NewStorageInfo`: the result, and what the record then holds. The two times are
    assigned the other way round. -/
def StorageInfo.newStorageInfo (cfg : Config) (fs : FileSystem) (info : StorageInfo)
    (storagePath : Bytes) (io : StatOutcome) : Option (Bool × StorageInfo) :=
  match FileUtil.fileExists fs storagePath io.existsThrows with
  | none => none
  | some false => some (false, info)
  | some true =>
    some (true, {
      -- the source has them this way round
      mtime_ := FileUtil.lastAccessTime fs storagePath io.accessOk
      atime_ := FileUtil.lastModifyTime fs storagePath io.modifyOk
      fsize_ := FileUtil.toSizeT (FileUtil.fileSize fs storagePath io.sizeOk)
      storage_path_ := storagePath
      url_ := cfg.downloadPrefix ++ FileUtil.fileName storagePath })

/-- `table_`: every record stands under its own url. -/
structure Table where
  entries : AList fun _ : Bytes => StorageInfo
  keyed : ∀ url info, entries.lookup url = some info → info.url_ = url

namespace Table

def lookup (table : Table) (url : Bytes) : Option StorageInfo := table.entries.lookup url

def empty : Table where
  entries := ∅
  keyed := by
    intro url info h
    rw [AList.lookup_empty] at h
    exact nomatch h

/-- `table_[info.url_] = info`. -/
def insert (table : Table) (info : StorageInfo) : Table where
  entries := table.entries.insert info.url_ info
  keyed := by
    intro url other h
    by_cases heq : url = info.url_
    · rw [heq, AList.lookup_insert] at h
      cases h
      exact heq.symm
    · rw [AList.lookup_insert_ne heq] at h
      exact table.keyed url other h

/-- The records of the table, in the order in which the map holds them. -/
def records (table : Table) : List StorageInfo := table.entries.entries.map Sigma.snd

theorem lookup_insert (table : Table) (info : StorageInfo) :
    (table.insert info).lookup info.url_ = some info := AList.lookup_insert _

theorem lookup_insert_ne (table : Table) {info : StorageInfo} {url : Bytes}
    (h : url ≠ info.url_) : (table.insert info).lookup url = table.lookup url :=
  AList.lookup_insert_ne h

@[simp] theorem lookup_empty (url : Bytes) : Table.empty.lookup url = none :=
  AList.lookup_empty url

theorem lookup_url {table : Table} {url : Bytes} {info : StorageInfo}
    (h : table.lookup url = some info) : info.url_ = url :=
  table.keyed url info h

/-- The records of the table are those that its urls lead to. -/
theorem mem_records {table : Table} {info : StorageInfo} :
    info ∈ table.records ↔ table.lookup info.url_ = some info := by
  simp only [records, List.mem_map]
  constructor
  · rintro ⟨⟨url, other⟩, hmem, rfl⟩
    have hlookup : table.entries.lookup url = some other := AList.mem_lookup_iff.mpr hmem
    have hurl : other.url_ = url := table.keyed url other hlookup
    show table.entries.lookup other.url_ = some other
    rw [hurl, hlookup]
  · intro h
    exact ⟨⟨info.url_, info⟩, AList.mem_lookup_iff.mp h, rfl⟩

/-- No two records share a url. -/
theorem nodup_urls (table : Table) : (table.records.map StorageInfo.url_).Nodup := by
  have hkeys : table.records.map StorageInfo.url_ = table.entries.keys := by
    simp only [records, AList.keys, List.keys, List.map_map]
    apply List.map_congr_left
    intro entry hmem
    exact table.keyed entry.1 entry.2 (AList.mem_lookup_iff.mpr hmem)
  rw [hkeys]
  exact table.entries.keys_nodup

end Table

/-- An iteration over an `std::unordered_map`: some order of its elements. -/
structure HashOrder where
  apply : List StorageInfo → List StorageInfo
  perm : ∀ records, (apply records).Perm records

/-- The order in which the elements are held. -/
def HashOrder.held : HashOrder where
  apply := id
  perm := fun _ => List.Perm.refl _

namespace DataManager

/-- `GetAll` on an empty vector. -/
def getAll (table : Table) (order : HashOrder) : List StorageInfo := order.apply table.records

/-- `GetOneByURL`: the result, and what `*info` then holds. -/
def getOneByURL (table : Table) (key : Bytes) (info : StorageInfo) : Bool × StorageInfo :=
  match table.lookup key with
  | some found => (true, found)
  | none => (false, info)

/-- `GetOneByStoragePath`: the loop returns at the first record of the path. -/
def getOneByStoragePath (table : Table) (order : HashOrder) (storagePath : Bytes)
    (info : StorageInfo) : Bool × StorageInfo :=
  match (order.apply table.records).find? (·.storage_path_ == storagePath) with
  | some found => (true, found)
  | none => (false, info)

/-- The conversion of a `size_t` or `time_t` to `Json::Int64`. -/
def toInt64 (n : Int) : Int :=
  (n + 9223372036854775808) % 18446744073709551616 - 9223372036854775808

/-- The JSON object of a record. The strings end at their first NUL. -/
def item (e : StorageInfo) : Json.Value :=
  .object (Json.Value.setMember (Bytes.ofString "storage_path_") (.string e.storage_path_.cstr)
    (Json.Value.setMember (Bytes.ofString "url_") (.string e.url_.cstr)
    (Json.Value.setMember (Bytes.ofString "fsize_") (.int (toInt64 e.fsize_))
    (Json.Value.setMember (Bytes.ofString "atime_") (.int (toInt64 e.atime_))
    (Json.Value.setMember (Bytes.ofString "mtime_") (.int (toInt64 e.mtime_)) [])))))

/-- `root` in `Storage`, which stays null if nothing is appended to it. -/
def root (arr : List StorageInfo) : Json.Value :=
  if arr.isEmpty then .null else .array (arr.map item)

/-- The text that `Storage` writes for a snapshot. -/
def storageText (lib : JsonCpp) (arr : List StorageInfo) : Bytes :=
  (JsonUtil.serialize lib (root arr) []).2

/-- `Storage`, which returns `true` whether or not the file could be written. -/
def storage (cfg : Config) (lib : JsonCpp) (fs : FileSystem) (table : Table)
    (order : HashOrder) (io : WriteOutcome) : Bool × FileSystem :=
  let body := storageText lib (getAll table order)
  (true, (FileUtil.setContent fs cfg.storageInfo body io).2)

/-- `Insert`: the result, the table and the file system after it. -/
def insert (cfg : Config) (lib : JsonCpp) (fs : FileSystem) (table : Table)
    (info : StorageInfo) (needPersist : Bool) (order : HashOrder) (io : WriteOutcome) :
    Bool × Table × FileSystem :=
  let table := table.insert info
  if needPersist then
    let (ok, fs) := storage cfg lib fs table order io
    (ok, table, fs)
  else
    (true, table, fs)

/-- `Update`. -/
def update (cfg : Config) (lib : JsonCpp) (fs : FileSystem) (table : Table)
    (info : StorageInfo) (order : HashOrder) (io : WriteOutcome) : Bool × Table × FileSystem :=
  let table := table.insert info
  let (ok, fs) := storage cfg lib fs table order io
  (ok, table, fs)

/-- One turn of the loop in `InitLoad`: the record at index `i`. -/
def loadRecord (lib : JsonCpp) (root : Json.Value) (i : Nat) : Option StorageInfo := do
  let e ← root.element i
  let fsize ← (← e.member (Bytes.ofString "fsize_")).asInt
  let atime ← (← e.member (Bytes.ofString "atime_")).asInt
  let mtime ← (← e.member (Bytes.ofString "mtime_")).asInt
  let storagePath ← (← e.member (Bytes.ofString "storage_path_")).asString lib
  let url ← (← e.member (Bytes.ofString "url_")).asString lib
  return {
    mtime_ := mtime
    atime_ := atime
    fsize_ := FileUtil.toSizeT fsize
    storage_path_ := storagePath
    url_ := url }

/-- The loop of `InitLoad` over the indices that are left. -/
def loadRecords (lib : JsonCpp) (root : Json.Value) : List Nat → Table → Option Table
  | [], table => some table
  | i :: is, table => do
    let info ← loadRecord lib root i
    loadRecords lib root is (table.insert info)

/-- What `InitLoad` meets: whether `fs::exists` throws, `stat` and the read succeed. -/
structure LoadOutcome where
  existsThrows : Bool
  sizeOk : Bool
  read : ReadOutcome
deriving DecidableEq, Repr

/-- `InitLoad`: the result and the table after it; `none` is an exception. While it runs
    `need_persist_` is `false`, so its `Insert`s change the table only. -/
def initLoad (cfg : Config) (lib : JsonCpp) (fs : FileSystem) (table : Table)
    (io : LoadOutcome) : Option (Bool × Table) :=
  match FileUtil.fileExists fs cfg.storageInfo io.existsThrows with
  | none => none
  | some false => some (true, table)
  | some true =>
    match FileUtil.getContent fs cfg.storageInfo [] io.sizeOk io.read with
    | none => none
    | some (false, _) => some (false, table)
    | some (true, body) =>
      -- what `UnSerialize` returns is not looked at: a text that does not parse is null
      let root := (JsonUtil.unSerialize lib body).2
      (loadRecords lib root (List.range root.size) table).map fun table => (true, table)

end DataManager

end Storage
