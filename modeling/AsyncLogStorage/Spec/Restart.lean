import AsyncLogStorage.Spec.FileSystem
import AsyncLogStorage.Spec.StorageFile

/-!
# Restart

`Storage` writes the numbers of a record as 64-bit integers and its strings up to their
first NUL; `InitLoad` reads the numbers by `asInt` and takes the strings as they are. A
restart gives back the table only if neither of the two loses anything of any record.

## Key results

- `reload_eq_self`: which records come back as they were
- `restart_eq`: a restart loads the document that was written, record by record
- `restart_restores_iff`: which tables a restart restores
-/

namespace Storage

open DataManager

/-- What `StorageInfo` can hold: two values of `time_t` and one of `size_t`. -/
structure StorageInfo.WellTyped (e : StorageInfo) : Prop where
  mtime : -9223372036854775808 ≤ e.mtime_ ∧ e.mtime_ ≤ 9223372036854775807
  atime : -9223372036854775808 ≤ e.atime_ ∧ e.atime_ ≤ 9223372036854775807
  fsize : e.fsize_ < SizeT.modulus

/-- The numbers of a record fit into an `int`, and its strings hold no NUL. -/
structure StorageInfo.Restorable (e : StorageInfo) : Prop where
  mtime : Json.Value.InIntRange e.mtime_
  atime : Json.Value.InIntRange e.atime_
  fsize : Json.Value.InIntRange (toInt64 e.fsize_)
  nulFree : e.NulFree

/-! ## One record -/

/-- A record that is written and loaded again; `none` is the exception of `asInt`. -/
def reload (e : StorageInfo) : Option StorageInfo :=
  if Json.Value.InIntRange (toInt64 e.fsize_) ∧ Json.Value.InIntRange (toInt64 e.atime_) ∧
      Json.Value.InIntRange (toInt64 e.mtime_) then
    some {
      mtime_ := toInt64 e.mtime_
      atime_ := toInt64 e.atime_
      fsize_ := FileUtil.toSizeT (toInt64 e.fsize_)
      storage_path_ := e.storage_path_.cstr
      url_ := e.url_.cstr }
  else none

theorem toInt64_eq {n : Int} (h : -9223372036854775808 ≤ n ∧ n ≤ 9223372036854775807) :
    toInt64 n = n := by
  unfold toInt64
  omega

/-- A `size_t` survives the way through `Json::Int64` and back. -/
theorem toSizeT_toInt64 {n : Nat} (h : n < SizeT.modulus) :
    FileUtil.toSizeT (toInt64 n) = n := by
  simp only [FileUtil.toSizeT, toInt64, SizeT.modulus] at *
  omega

/-- A record comes back as it was if its numbers fit and its strings are whole. -/
theorem reload_eq_self {e : StorageInfo} (hwt : e.WellTyped) (h : e.Restorable) :
    reload e = some e := by
  obtain ⟨hmtime, hatime, hfsize, hpath, hurl⟩ := h
  -- the two times are within 64 bits, so `Json::Int64` holds them as they are
  have hfit : Json.Value.InIntRange (toInt64 e.fsize_) ∧
      Json.Value.InIntRange (toInt64 e.atime_) ∧ Json.Value.InIntRange (toInt64 e.mtime_) := by
    rw [toInt64_eq hwt.atime, toInt64_eq hwt.mtime]
    exact ⟨hfsize, hatime, hmtime⟩
  rw [reload, if_pos hfit, toInt64_eq hwt.atime, toInt64_eq hwt.mtime,
    toSizeT_toInt64 hwt.fsize, Bytes.cstr_eq_self.mpr hpath, Bytes.cstr_eq_self.mpr hurl]

/-- Whatever comes back has no NUL. -/
theorem nulFree_of_reload {e info : StorageInfo} (h : reload e = some info) : info.NulFree := by
  obtain ⟨-, hinfo⟩ := Option.ite_none_right_eq_some.mp h
  cases hinfo
  exact ⟨Bytes.not_mem_cstr _, Bytes.not_mem_cstr _⟩

/-- A record that comes back at all has numbers that fit. -/
theorem inIntRange_of_reload {e info : StorageInfo} (hwt : e.WellTyped)
    (h : reload e = some info) : Json.Value.InIntRange e.mtime_ ∧
      Json.Value.InIntRange e.atime_ ∧ Json.Value.InIntRange (toInt64 e.fsize_) := by
  obtain ⟨⟨hfsize, hatime, hmtime⟩, -⟩ := Option.ite_none_right_eq_some.mp h
  rw [toInt64_eq hwt.atime] at hatime
  rw [toInt64_eq hwt.mtime] at hmtime
  exact ⟨hmtime, hatime, hfsize⟩

/-- What the loop of `InitLoad` makes of an object with the five members. -/
private theorem loadRecord_of_element {lib : JsonCpp} {value : Json.Value} {i : Nat}
    {atime fsize mtime : Int} {path url : Bytes}
    (h : value.element i = some (.object [
      (Bytes.ofString "atime_", .int atime), (Bytes.ofString "fsize_", .int fsize),
      (Bytes.ofString "mtime_", .int mtime), (Bytes.ofString "storage_path_", .string path),
      (Bytes.ofString "url_", .string url)])) :
    loadRecord lib value i =
      if Json.Value.InIntRange fsize ∧ Json.Value.InIntRange atime ∧
          Json.Value.InIntRange mtime then
        some { mtime_ := mtime, atime_ := atime, fsize_ := FileUtil.toSizeT fsize,
               storage_path_ := path, url_ := url }
      else none := by
  have hrecord : loadRecord lib value i = (Json.Value.int fsize).asInt.bind fun fsize =>
      (Json.Value.int atime).asInt.bind fun atime =>
      (Json.Value.int mtime).asInt.bind fun mtime =>
      some { mtime_ := mtime, atime_ := atime, fsize_ := FileUtil.toSizeT fsize,
             storage_path_ := path, url_ := url } := by
    rw [loadRecord, h]
    rfl
  rw [hrecord]
  simp only [Json.Value.asInt]
  -- each of the three calls of `asInt` may throw
  by_cases hf : Json.Value.InIntRange fsize
  · by_cases ha : Json.Value.InIntRange atime
    · by_cases hm : Json.Value.InIntRange mtime
      · simp [hf, ha, hm]
      · simp [hf, ha, hm]
    · simp [hf, ha]
  · simp [hf]

/-- The loop of `InitLoad` meets in an item what `reload` says. -/
theorem loadRecord_root (lib : JsonCpp) {arr : List StorageInfo} {i : Nat} (hi : i < arr.length) :
    loadRecord lib (root arr) i = reload arr[i] := by
  have helement : (root arr).element i = some (item arr[i]) := by
    rw [root_of_mem (List.getElem_mem hi)]
    simp only [Json.Value.element, List.getElem?_map, List.getElem?_eq_getElem hi, Option.map_some,
      Option.getD_some]
  rw [item_eq, recordOf] at helement
  rw [loadRecord_of_element helement, reload]

/-! ## The loop -/

/-- The loop inserts what it loads, if it can load everything. -/
theorem loadRecords_eq_some {lib : JsonCpp} {value : Json.Value} {is : List Nat}
    {table table' : Table} :
    loadRecords lib value is table = some table' ↔
      ∃ infos, List.Forall₂ (fun i info => loadRecord lib value i = some info) is infos ∧
        infos.foldl Table.insert table = table' := by
  induction is generalizing table with
  | nil => simp [loadRecords]
  | cons i is ih =>
    simp only [loadRecords, Option.bind_eq_bind, Option.bind_eq_some_iff, ih]
    constructor
    · rintro ⟨info, hinfo, infos, hinfos, rfl⟩
      exact ⟨info :: infos, .cons hinfo hinfos, rfl⟩
    · rintro ⟨infos, hinfos, htable⟩
      cases hinfos with
      | cons hinfo hrest => exact ⟨_, hinfo, _, hrest, htable⟩

/-- Loading the array of a snapshot reloads its records in their order. -/
theorem forall₂_loadRecord_iff {lib : JsonCpp} {arr infos : List StorageInfo} :
    List.Forall₂ (fun i info => loadRecord lib (root arr) i = some info)
        (List.range arr.length) infos ↔
      List.Forall₂ (fun e info => reload e = some info) arr infos := by
  apply List.forall₂_range_iff
  intro i hi info
  rw [loadRecord_root lib hi, List.get_eq_getElem]

/-! ## The table -/

/-- A record of a table that was filled by insertions is one of those inserted, unless it
    was there before. -/
theorem mem_of_lookup_foldl {infos : List StorageInfo} {table : Table} {url : Bytes}
    {info : StorageInfo} (h : (infos.foldl Table.insert table).lookup url = some info) :
    info ∈ infos ∨ table.lookup url = some info := by
  induction infos generalizing table with
  | nil => exact .inr h
  | cons e infos ih =>
    obtain hmem | hbefore := ih h
    · exact .inl (List.mem_cons_of_mem e hmem)
    · -- not from the later insertions, so perhaps from the first
      by_cases heq : url = e.url_
      · rw [heq, Table.lookup_insert] at hbefore
        cases hbefore
        exact .inl List.mem_cons_self
      · rw [Table.lookup_insert_ne table heq] at hbefore
        exact .inr hbefore

/-- The other urls keep what was there. -/
theorem lookup_foldl_of_not_mem {infos : List StorageInfo} {table : Table} {url : Bytes}
    (h : url ∉ infos.map StorageInfo.url_) :
    (infos.foldl Table.insert table).lookup url = table.lookup url := by
  induction infos generalizing table with
  | nil => rfl
  | cons e infos ih =>
    rw [List.map_cons, List.mem_cons, not_or] at h
    rw [List.foldl_cons, ih h.2, Table.lookup_insert_ne table h.1]

/-- Insertions under different urls all stay. -/
theorem lookup_foldl_of_mem {infos : List StorageInfo} {table : Table} {info : StorageInfo}
    (hnodup : (infos.map StorageInfo.url_).Nodup) (h : info ∈ infos) :
    (infos.foldl Table.insert table).lookup info.url_ = some info := by
  induction infos generalizing table with
  | nil => exact nomatch h
  | cons e infos ih =>
    rw [List.map_cons, List.nodup_cons] at hnodup
    obtain rfl | hmem := List.mem_cons.mp h
    · -- no later record has its url
      rw [List.foldl_cons, lookup_foldl_of_not_mem hnodup.1, Table.lookup_insert]
    · exact ih hnodup.2 hmem

/-- Inserting the records of a table into an empty one, in any order, gives the table. -/
theorem lookup_foldl_getAll (table : Table) (order : HashOrder) (url : Bytes) :
    ((getAll table order).foldl Table.insert .empty).lookup url = table.lookup url := by
  have hperm : (getAll table order).Perm table.records := order.perm _
  apply Option.ext
  intro info
  constructor
  · intro h
    have hurl : info.url_ = url := Table.lookup_url h
    obtain hmem | hempty := mem_of_lookup_foldl h
    · rw [← hurl]
      exact Table.mem_records.mp (hperm.mem_iff.mp hmem)
    · rw [Table.lookup_empty] at hempty
      cases hempty
  · intro h
    have hurl : info.url_ = url := Table.lookup_url h
    rw [← hurl] at h ⊢
    have hnodup : ((getAll table order).map StorageInfo.url_).Nodup :=
      (hperm.map _).nodup_iff.mpr table.nodup_urls
    exact lookup_foldl_of_mem hnodup (hperm.mem_iff.mpr (Table.mem_records.mpr h))

/-! ## Restart -/

/-- What the two runs meet: the write of `Storage` and the calls of `InitLoad`. -/
structure RestartIo where
  order : HashOrder
  write : WriteOutcome
  load : LoadOutcome

/-- `Storage`, and then `InitLoad` on an empty table. -/
def restart (cfg : Config) (lib : JsonCpp) (fs : FileSystem) (table : Table) (io : RestartIo) :
    Option (Bool × Table) :=
  initLoad cfg lib (storage cfg lib fs table io.order io.write).2 .empty io.load

/-- JsonCpp writes the document and parses back what it wrote, and all input and output
    succeeds. -/
structure RestartIo.Succeeds (cfg : Config) (lib : JsonCpp) (fs : FileSystem) (table : Table)
    (io : RestartIo) (text : Bytes) : Prop where
  write : lib.write (root (getAll table io.order)) = some text
  parse : lib.parse text = (true, root (getAll table io.order))
  size : text.length ≤ FileUtil.stringMaxSize
  creatable : fs.creatable cfg.storageInfo = true
  opens : io.write.opens = true
  written : text.length ≤ io.write.written
  exist : io.load.existsThrows = false
  stat : io.load.sizeOk = true
  readOpens : io.load.read.opens = true
  delivered : text.length ≤ io.load.read.delivered

/-- The restart ends without an exception, with the same map from urls to records. -/
def Restores (cfg : Config) (lib : JsonCpp) (fs : FileSystem) (table : Table) (io : RestartIo) :
    Prop :=
  ∃ ok after, restart cfg lib fs table io = some (ok, after) ∧
    ∀ url, after.lookup url = table.lookup url

section
variable {cfg : Config} {lib : JsonCpp} {fs : FileSystem} {table : Table} {io : RestartIo}
  {text : Bytes}

/-- A restart loads the document that was written, record by record. -/
theorem restart_eq (h : io.Succeeds cfg lib fs table text) :
    restart cfg lib fs table io =
      (loadRecords lib (root (getAll table io.order))
        (List.range (getAll table io.order).length) .empty).map fun after => (true, after) := by
  have htext : storageText lib (getAll table io.order) = text := by
    simp only [storageText, JsonUtil.serialize, h.write]
  have hfile := FileSystem.fileAt_store text io.write.time h.creatable
  have hfs : (storage cfg lib fs table io.order io.write).2 =
      fs.store (resolve cfg.storageInfo) text io.write.time := by
    simp only [storage, htext, FileUtil.setContent, h.creatable, h.opens, Bool.and_self,
      ↓reduceIte, List.take_of_length_le h.written]
  have hfind : (fs.store (resolve cfg.storageInfo) text io.write.time).find cfg.storageInfo =
      some (.file _) := FileSystem.find_store text io.write.time h.creatable
  have hread := getContent_of_fileAt [] hfile h.size h.readOpens h.delivered
  have hlength : (root (getAll table io.order)).size = (getAll table io.order).length := by
    -- nothing is appended for an empty table, and null has size 0
    unfold root
    split
    · rename_i hempty
      rw [List.isEmpty_iff.mp hempty]
      rfl
    · exact List.length_map _
  simp only [restart, initLoad, hfs, FileUtil.fileExists, h.exist, Bool.false_eq_true,
    ↓reduceIte, hfind, Option.isSome_some, h.stat, hread, JsonUtil.unSerialize, h.parse, hlength]

/-- A restart restores the table exactly if every record of it is restorable. -/
theorem restart_restores_iff (hwt : ∀ e ∈ table.records, e.WellTyped)
    (h : io.Succeeds cfg lib fs table text) :
    Restores cfg lib fs table io ↔ ∀ e ∈ table.records, e.Restorable := by
  have hperm : (getAll table io.order).Perm table.records := io.order.perm _
  unfold Restores
  rw [restart_eq h]
  constructor
  · rintro ⟨ok, after, hload, hsame⟩ e he
    obtain ⟨loaded, hrecords, hafter⟩ := Option.map_eq_some_iff.mp hload
    cases hafter
    obtain ⟨infos, hinfos, rfl⟩ := loadRecords_eq_some.mp hrecords
    have hreload := forall₂_loadRecord_iff.mp hinfos
    -- the record itself came out of the loop, so it has no NUL
    have hlookup : (infos.foldl Table.insert .empty).lookup e.url_ = some e := by
      rw [hsame, Table.mem_records.mp he]
    have hmem : e ∈ infos := by
      obtain hmem | hempty := mem_of_lookup_foldl hlookup
      · exact hmem
      · rw [Table.lookup_empty] at hempty
        cases hempty
    obtain ⟨source, -, hsource⟩ := hreload.exists_of_mem_right hmem
    -- and what was made of it is there, so its numbers fit
    obtain ⟨info, -, hinfo⟩ := hreload.exists_of_mem_left (hperm.mem_iff.mpr he)
    obtain ⟨hmtime, hatime, hfsize⟩ := inIntRange_of_reload (hwt e he) hinfo
    exact ⟨hmtime, hatime, hfsize, nulFree_of_reload hsource⟩
  · intro hrestorable
    -- every record comes back as it was, so the loop inserts the snapshot itself
    have hreload : List.Forall₂ (fun e info => reload e = some info) (getAll table io.order)
        (getAll table io.order) := by
      apply List.forall₂_same.mpr
      intro e he
      have he : e ∈ table.records := hperm.mem_iff.mp he
      exact reload_eq_self (hwt e he) (hrestorable e he)
    have hrecords : loadRecords lib (root (getAll table io.order))
        (List.range (getAll table io.order).length) .empty =
          some ((getAll table io.order).foldl Table.insert .empty) :=
      loadRecords_eq_some.mpr ⟨getAll table io.order, forall₂_loadRecord_iff.mpr hreload, rfl⟩
    rw [hrecords]
    exact ⟨true, _, rfl, lookup_foldl_getAll table io.order⟩

end

/-- A restart at which all goes well. -/
def smallRestart : RestartIo where
  order := .held
  write := { opens := true, written := 1000, time := 100 }
  load := { existsThrows := false, sizeOk := true, read := { opens := true, delivered := 1000 } }

/-- The table with the record of one file of `size` bytes. -/
def smallTable (size : Nat) : Table := Table.empty.insert (smallInfo "a" size)

theorem forall_records_smallTable {P : StorageInfo → Prop} {size : Nat}
    (h : P (smallInfo "a" size)) : ∀ e ∈ (smallTable size).records, P e := by
  intro e he
  have hrecords : (smallTable size).records = [smallInfo "a" size] := rfl
  rw [hrecords, List.mem_singleton] at he
  rw [he]
  exact h

theorem smallRestart_succeeds (size : Nat) {digits : String}
    (hlen : (smallText [("a", digits)]).length ≤ 1000) :
    smallRestart.Succeeds Config.shipped (smallJson size digits) ∅ (smallTable size)
      (smallText [("a", digits)]) := by
  have hmax : 1000 ≤ FileUtil.stringMaxSize :=
    Nat.le_trans (by decide) FileUtil.le_stringMaxSize
  have hcreatable : FileSystem.creatable ∅ Config.shipped.storageInfo = true := by decide
  refine ⟨rfl, ?_, hlen.trans hmax, hcreatable, rfl, hlen, rfl, rfl, rfl, hlen⟩
  simp only [smallJson, JsonCpp.single, beq_self_eq_true]
  rfl

set_option maxRecDepth 2048 in
theorem restart_restores_small :
    Restores Config.shipped (smallJson 2 "2") ∅ (smallTable 2) smallRestart := by
  have hlen : (smallText [("a", "2")]).length ≤ 1000 := by decide
  have hinfo : (smallInfo "a" 2).WellTyped := ⟨by decide, by decide, by decide⟩
  have hrestorable : (smallInfo "a" 2).Restorable :=
    ⟨by decide, by decide, by decide, by decide, by decide⟩
  exact (restart_restores_iff (forall_records_smallTable hinfo) (smallRestart_succeeds 2 hlen)).mpr
    (forall_records_smallTable hrestorable)

set_option maxRecDepth 2048 in
/-- A file of two gibibytes is recorded, and the restart ends in an exception. -/
theorem restart_not_restored :
    ¬∀ (cfg : Config) (lib : JsonCpp) (fs : FileSystem) (table : Table) (io : RestartIo)
      (text : Bytes), (∀ e ∈ table.records, e.WellTyped) → io.Succeeds cfg lib fs table text →
      Restores cfg lib fs table io := by
  have hlen : (smallText [("a", "2147483648")]).length ≤ 1000 := by decide
  have hinfo : (smallInfo "a" 2147483648).WellTyped := ⟨by decide, by decide, by decide⟩
  have hthrows : reload (smallInfo "a" 2147483648) = none := by decide
  have hsucceeds := smallRestart_succeeds 2147483648 hlen
  intro h
  obtain ⟨ok, after, hload, -⟩ := h _ _ _ (smallTable 2147483648) _ _
    (forall_records_smallTable hinfo) hsucceeds
  -- the loop would have loaded the one record
  rw [restart_eq hsucceeds] at hload
  obtain ⟨loaded, hrecords, -⟩ := Option.map_eq_some_iff.mp hload
  obtain ⟨infos, hinfos, -⟩ := loadRecords_eq_some.mp hrecords
  obtain ⟨info, -, hinfo⟩ :=
    (forall₂_loadRecord_iff.mp hinfos).exists_of_mem_left (List.mem_singleton_self _)
  rw [hthrows] at hinfo
  cases hinfo

end Storage
