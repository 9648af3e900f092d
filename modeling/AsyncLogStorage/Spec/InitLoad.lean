import AsyncLogStorage.Spec.Restart

/-!
# Loading any storage file

`InitLoad` drops what `UnSerialize` returns and runs its loop over whatever value came
out. An object throws at its first index, a scalar or a text that is no JSON ends the
loop at once, and an element without some of the five members is loaded with the
values of a null. Only a document that `Storage` could have written is taken for what
it is.

## Key results

- `loadRecords_document`: the loop over a valid document inserts its records
- `initLoad_honest_iff`: `InitLoad` is total and honest exactly on the files that are
  absent, cannot be read or hold a valid document
-/

namespace Storage

open DataManager

/-- The object has the five members, and each of them converts to a field of `info`. -/
def IsRecord (lib : JsonCpp) (value : Json.Value) (info : StorageInfo) : Prop :=
  ∃ members fsize atime mtime path url fsizeValue, value = .object members ∧
    members.lookup (Bytes.ofString "fsize_") = some fsize ∧
    members.lookup (Bytes.ofString "atime_") = some atime ∧
    members.lookup (Bytes.ofString "mtime_") = some mtime ∧
    members.lookup (Bytes.ofString "storage_path_") = some path ∧
    members.lookup (Bytes.ofString "url_") = some url ∧
    fsize.asInt = some fsizeValue ∧ info.fsize_ = FileUtil.toSizeT fsizeValue ∧
    atime.asInt = some info.atime_ ∧ mtime.asInt = some info.mtime_ ∧
    path.asString lib = some info.storage_path_ ∧ url.asString lib = some info.url_

/-- What the loop takes an element for: a member that is not there counts as null. -/
def TakenFor (lib : JsonCpp) (value : Json.Value) (info : StorageInfo) : Prop :=
  ∃ fsizeValue,
    (value.member (Bytes.ofString "fsize_")).bind Json.Value.asInt = some fsizeValue ∧
    info.fsize_ = FileUtil.toSizeT fsizeValue ∧
    (value.member (Bytes.ofString "atime_")).bind Json.Value.asInt = some info.atime_ ∧
    (value.member (Bytes.ofString "mtime_")).bind Json.Value.asInt = some info.mtime_ ∧
    (value.member (Bytes.ofString "storage_path_")).bind (Json.Value.asString lib) =
      some info.storage_path_ ∧
    (value.member (Bytes.ofString "url_")).bind (Json.Value.asString lib) = some info.url_

/-- The text is JSON, and it is null or an array of records. -/
def Document (lib : JsonCpp) (text : Bytes) (infos : List StorageInfo) : Prop :=
  (lib.parse text = (true, .null) ∧ infos = []) ∨
    ∃ elements, lib.parse text = (true, .array elements) ∧
      List.Forall₂ (IsRecord lib) elements infos

section
variable {cfg : Config} {lib : JsonCpp} {fs : FileSystem} {table : Table} {io : LoadOutcome}

/-- What `GetContent` reads from the storage file. -/
def storageContent (cfg : Config) (fs : FileSystem) (io : LoadOutcome) : Option (Bool × Bytes) :=
  FileUtil.getContent fs cfg.storageInfo [] io.sizeOk io.read

/-- `InitLoad` throws nothing. It returns `true` exactly for a file that is absent or can be
    read and holds a document, whose records are then in the table, and `false` with the
    table as it was otherwise. -/
def Honest (cfg : Config) (lib : JsonCpp) (fs : FileSystem) (table : Table) (io : LoadOutcome) :
    Prop :=
  ∃ ok after, initLoad cfg lib fs table io = some (ok, after) ∧
    (ok = true ↔ fs.find cfg.storageInfo = none ∨
      ∃ text infos, storageContent cfg fs io = some (true, text) ∧ Document lib text infos) ∧
    (ok = true → (fs.find cfg.storageInfo = none ∧ after = table) ∨
      ∃ text infos, storageContent cfg fs io = some (true, text) ∧ Document lib text infos ∧
        after = infos.foldl Table.insert table) ∧
    (ok = false → after = table)

/-- No call throws, and the file is absent, or `GetContent` fails, or what it reads is a
    document. -/
def Loadable (cfg : Config) (lib : JsonCpp) (fs : FileSystem) (io : LoadOutcome) : Prop :=
  io.existsThrows = false ∧
    (fs.find cfg.storageInfo = none ∨
      (∃ rest, storageContent cfg fs io = some (false, rest)) ∨
      ∃ text infos, storageContent cfg fs io = some (true, text) ∧ Document lib text infos)

/-- A record is taken for itself. -/
theorem takenFor_of_isRecord {value : Json.Value} {info : StorageInfo}
    (h : IsRecord lib value info) : TakenFor lib value info := by
  obtain ⟨members, fsize, atime, mtime, path, url, fsizeValue, rfl, hfsize, hatime, hmtime, hpath,
    hurl, hsize, hsizeT, ha, hm, hp, hu⟩ := h
  simp only [TakenFor, Json.Value.member, hfsize, hatime, hmtime, hpath, hurl, Option.getD_some,
    Option.bind_some]
  exact ⟨fsizeValue, hsize, hsizeT, ha, hm, hp, hu⟩

/-- One turn of the loop gives what the element is taken for, if there is one. -/
theorem loadRecord_eq_some {root : Json.Value} {i : Nat} {info : StorageInfo} :
    loadRecord lib root i = some info ↔
      ∃ value, root.element i = some value ∧ TakenFor lib value info := by
  simp only [loadRecord, TakenFor, Option.bind_eq_bind, Option.bind_eq_some_iff, Option.pure_def,
    Option.some.injEq]
  constructor
  · rintro ⟨value, hvalue, fsize, hfsize, n, hn, atime, hatime, a, ha, mtime, hmtime, m, hm, path,
      hpath, p, hp, url, hurl, u, hu, rfl⟩
    exact ⟨value, hvalue, n, ⟨fsize, hfsize, hn⟩, rfl, ⟨atime, hatime, ha⟩, ⟨mtime, hmtime, hm⟩,
      ⟨path, hpath, hp⟩, ⟨url, hurl, hu⟩⟩
  · rintro ⟨value, hvalue, n, ⟨fsize, hfsize, hn⟩, hsize, ⟨atime, hatime, ha⟩, ⟨mtime, hmtime, hm⟩,
      ⟨path, hpath, hp⟩, ⟨url, hurl, hu⟩⟩
    refine ⟨value, hvalue, fsize, hfsize, n, hn, atime, hatime, _, ha, mtime, hmtime, _, hm, path,
      hpath, _, hp, url, hurl, _, hu, ?_⟩
    rw [← hsize]

/-- The loop over an array inserts what its elements are taken for. -/
theorem loadRecords_array_eq_some {elements : List Json.Value} {table after : Table} :
    loadRecords lib (.array elements) (List.range elements.length) table = some after ↔
      ∃ infos, List.Forall₂ (TakenFor lib) elements infos ∧
        infos.foldl Table.insert table = after := by
  rw [loadRecords_eq_some]
  refine exists_congr fun infos => and_congr_left fun _ => ?_
  apply List.forall₂_range_iff
  intro i hi info
  have hvalue : (Json.Value.array elements).element i = some (elements.get ⟨i, hi⟩) := by
    simp only [Json.Value.element, List.getElem?_eq_getElem hi, Option.getD_some,
      List.get_eq_getElem]
  simp only [loadRecord_eq_some, hvalue, Option.some.injEq, exists_eq_left']

/-- The loop over a valid document inserts its records in their order. -/
theorem loadRecords_document {text : Bytes} {infos : List StorageInfo}
    (h : Document lib text infos) (table : Table) :
    loadRecords lib (JsonUtil.unSerialize lib text).2
        (List.range (JsonUtil.unSerialize lib text).2.size) table =
      some (infos.foldl Table.insert table) := by
  obtain ⟨hparse, rfl⟩ | ⟨elements, hparse, hrecords⟩ := h
  · simp only [JsonUtil.unSerialize, hparse]
    rfl
  · simp only [JsonUtil.unSerialize, hparse, Json.Value.size, loadRecords_array_eq_some]
    exact ⟨infos, hrecords.imp fun _ _ => takenFor_of_isRecord, rfl⟩

/-- `InitLoad` on a file that is there and can be read returns `true` or throws. -/
theorem initLoad_of_content {text : Bytes} (hexists : io.existsThrows = false)
    (hfind : (fs.find cfg.storageInfo).isSome = true)
    (hcontent : storageContent cfg fs io = some (true, text)) :
    initLoad cfg lib fs table io =
      (loadRecords lib (JsonUtil.unSerialize lib text).2
        (List.range (JsonUtil.unSerialize lib text).2.size) table).map fun table =>
          (true, table) := by
  rw [storageContent] at hcontent
  simp only [initLoad, FileUtil.fileExists, hexists, Bool.false_eq_true, ↓reduceIte, hfind,
    hcontent]

/-- `InitLoad` throws nothing and tells the truth exactly for a file that is absent, that
    cannot be read or that holds a valid document. -/
theorem initLoad_honest_iff (cfg : Config) (lib : JsonCpp) (fs : FileSystem) (table : Table)
    (io : LoadOutcome) : Honest cfg lib fs table io ↔ Loadable cfg lib fs io := by
  unfold Honest Loadable
  cases hexists : io.existsThrows with
  | true =>
    have hthrows : initLoad cfg lib fs table io = none := by
      simp only [initLoad, FileUtil.fileExists, hexists, ↓reduceIte]
    simp only [hthrows, reduceCtorEq, false_and, exists_false]
  | false =>
    cases hfind : fs.find cfg.storageInfo with
    | none =>
      have hload : initLoad cfg lib fs table io = some (true, table) := by
        simp only [initLoad, FileUtil.fileExists, hexists, Bool.false_eq_true, ↓reduceIte, hfind,
          Option.isSome_none]
      simp only [hload, true_or, and_self, iff_true]
      exact ⟨true, table, rfl, by simp, fun _ => .inl ⟨trivial, rfl⟩, by simp⟩
    | some node =>
      have hsome : (fs.find cfg.storageInfo).isSome = true := by rw [hfind, Option.isSome_some]
      simp only [reduceCtorEq, false_or, false_and, true_and]
      cases hcontent : storageContent cfg fs io with
      | none =>
        -- `resize` threw
        have hthrows : initLoad cfg lib fs table io = none := by
          rw [storageContent] at hcontent
          simp only [initLoad, FileUtil.fileExists, hexists, Bool.false_eq_true, ↓reduceIte, hsome,
            hcontent]
        simp only [hthrows, reduceCtorEq, false_and, exists_false, or_self]
      | some result =>
        obtain ⟨ok, text⟩ := result
        cases ok with
        | false =>
          have hload : initLoad cfg lib fs table io = some (false, table) := by
            rw [storageContent] at hcontent
            simp only [initLoad, FileUtil.fileExists, hexists, Bool.false_eq_true, ↓reduceIte,
              hsome, hcontent]
          simp [hload]
        | true =>
          rw [initLoad_of_content hexists hsome hcontent]
          simp only [Option.some.injEq, Prod.mk.injEq, true_and, Bool.true_eq_false, false_and,
            exists_false, false_or]
          constructor
          · -- the result can only be `true`, so there is a document
            rintro ⟨ok, after, hload, hok, -, -⟩
            obtain ⟨loaded, -, hresult⟩ := Option.map_eq_some_iff.mp hload
            exact hok.mp (Prod.mk.inj hresult).1.symm
          · rintro ⟨text', infos, rfl, hdoc⟩
            rw [loadRecords_document hdoc table]
            refine ⟨true, infos.foldl Table.insert table, rfl, ?_, ?_, by simp⟩
            · simp only [true_iff]
              exact ⟨text, infos, rfl, hdoc⟩
            · exact fun _ => ⟨text, infos, rfl, hdoc, rfl⟩

end

/-- A file that holds an empty object, which JsonCpp parses as one. -/
def objectFile : FileSystem :=
  FileSystem.store ∅ (resolve Config.shipped.storageInfo) (Bytes.ofString "\x7b\x7d") 100

/-- JsonCpp for that text. -/
def objectJson : JsonCpp := .single (.object []) (Bytes.ofString "\x7b\x7d")

/-- `InitLoad` takes an empty object for a file that was loaded. -/
theorem initLoad_accepts_object :
    ¬∀ (cfg : Config) (lib : JsonCpp) (fs : FileSystem) (table : Table) (io : LoadOutcome),
      Honest cfg lib fs table io := by
  intro h
  have hcontent : storageContent Config.shipped objectFile smallRestart.load =
      some (true, Bytes.ofString "\x7b\x7d") := by decide
  have hfind : (objectFile.find Config.shipped.storageInfo).isSome = true := by decide
  obtain ⟨ok, after, hload, hok, -, -⟩ :=
    h Config.shipped objectJson objectFile .empty smallRestart.load
  rw [initLoad_of_content rfl hfind hcontent] at hload
  -- the loop has nothing to do
  cases hload
  obtain hnone | ⟨text, infos, htext, hdoc⟩ := hok.mp rfl
  · rw [hnone] at hfind
    cases hfind
  · rw [hcontent] at htext
    cases htext
    obtain ⟨hparse, -⟩ | ⟨elements, hparse, -⟩ := hdoc
    · cases hparse
    · cases hparse

end Storage
