import AsyncLogStorage.Native.DataManager

/-!
# The text of the storage file

`Storage` writes one JSON object for each record of a snapshot and cuts the strings at
their first NUL. A text records a file if it is a valid document with the object of
that file's record, its strings whole.

## Key results

- `item_eq_recordOf`: which records are written whole
- `recordsIn_storageText`: which records the text of a snapshot holds, if it is cut short
-/

namespace Storage

open DataManager

/-- The JSON object of a record with its strings whole. -/
def recordOf (e : StorageInfo) : Json.Value :=
  .object [
    (Bytes.ofString "atime_", .int (toInt64 e.atime_)),
    (Bytes.ofString "fsize_", .int (toInt64 e.fsize_)),
    (Bytes.ofString "mtime_", .int (toInt64 e.mtime_)),
    (Bytes.ofString "storage_path_", .string e.storage_path_),
    (Bytes.ofString "url_", .string e.url_)]

/-- The members of the object that `Storage` builds are sorted by their keys. -/
theorem item_eq (e : StorageInfo) :
    item e = recordOf { e with storage_path_ := e.storage_path_.cstr, url_ := e.url_.cstr } :=
  rfl

/-- The strings of a record end at no NUL. -/
def StorageInfo.NulFree (e : StorageInfo) : Prop := 0 ∉ e.storage_path_ ∧ 0 ∉ e.url_

theorem item_eq_recordOf {e info : StorageInfo} (h : item e = recordOf info) : info.NulFree := by
  rw [item_eq] at h
  simp only [recordOf, Json.Value.object.injEq, List.cons.injEq, Prod.mk.injEq, true_and,
    Json.Value.string.injEq, and_true] at h
  obtain ⟨-, -, -, hpath, hurl⟩ := h
  constructor
  · rw [← hpath]
    exact Bytes.not_mem_cstr _
  · rw [← hurl]
    exact Bytes.not_mem_cstr _

theorem item_of_nulFree {info : StorageInfo} (h : info.NulFree) : item info = recordOf info := by
  rw [item_eq, Bytes.cstr_eq_self.mpr h.1, Bytes.cstr_eq_self.mpr h.2]

/-- What the documentation of JsonCpp says of its writer and its strict reader for one
    value: the reader gets back what was written, takes no text that stops short and no
    empty one. -/
structure JsonCpp.Faithful (lib : JsonCpp) (value : Json.Value) : Prop where
  parse_write : ∀ text, lib.write value = some text → lib.parse text = (true, value)
  parse_prefix : ∀ text head, lib.write value = some text → head <+: text → head ≠ text →
    (lib.parse head).1 = false
  parse_nil : (lib.parse []).1 = false

/-- A library that knows one document and its text. -/
def JsonCpp.single (value : Json.Value) (text : Bytes) : JsonCpp where
  write := fun _ => some text
  parse := fun input => (input == text, value)
  realToString := fun _ => []

theorem JsonCpp.single_faithful {text : Bytes} (value : Json.Value) (hne : text ≠ []) :
    (JsonCpp.single value text).Faithful value := by
  constructor
  · intro text' htext
    cases htext
    simp [JsonCpp.single]
  · intro text' head htext _ hhead
    cases htext
    simpa [JsonCpp.single] using hhead
  · simpa [JsonCpp.single] using hne.symm

/-- The text is a document that records `info`. -/
def RecordsIn (lib : JsonCpp) (text : Bytes) (info : StorageInfo) : Prop :=
  ∃ elements, lib.parse text = (true, .array elements) ∧ recordOf info ∈ elements

/-- The document of a snapshot that is not empty. -/
theorem root_of_mem {arr : List StorageInfo} {e : StorageInfo} (h : e ∈ arr) :
    root arr = .array (arr.map item) := by
  have hne : arr.isEmpty = false := by
    simpa using List.ne_nil_of_mem h
  simp only [root, hne, Bool.false_eq_true, ↓reduceIte]

/-- The first `n` bytes of the text of a snapshot record what the snapshot holds, if they
    are all of it and the writer did not fail. -/
theorem recordsIn_storageText {lib : JsonCpp} {arr : List StorageInfo}
    (hlib : lib.Faithful (root arr)) (n : Nat) (info : StorageInfo) :
    RecordsIn lib ((storageText lib arr).take n) info ↔
      ∃ text, lib.write (root arr) = some text ∧ text.length ≤ n ∧
        ∃ e ∈ arr, item e = recordOf info := by
  unfold storageText JsonUtil.serialize
  constructor
  · rintro ⟨elements, hparse, hmem⟩
    cases hwrite : lib.write (root arr) with
    | none =>
      -- the text is empty, and no document
      rw [hwrite, List.take_nil] at hparse
      have hnil := hlib.parse_nil
      rw [hparse] at hnil
      exact nomatch hnil
    | some text =>
      rw [hwrite] at hparse
      by_cases hlen : text.length ≤ n
      · -- the whole text is the document of the snapshot
        refine ⟨text, rfl, hlen, ?_⟩
        rw [List.take_of_length_le hlen, hlib.parse_write text hwrite] at hparse
        unfold root at hparse
        split at hparse
        · exact nomatch hparse
        · simp only [Prod.mk.injEq, Json.Value.array.injEq, true_and] at hparse
          rw [← hparse] at hmem
          exact List.mem_map.mp hmem
      · -- what was cut off is missing
        have hne : text.take n ≠ text := by
          intro heq
          have := congrArg List.length heq
          rw [List.length_take] at this
          omega
        have hcut := hlib.parse_prefix text _ hwrite (List.take_prefix n text) hne
        rw [hparse] at hcut
        exact nomatch hcut
  · rintro ⟨text, hwrite, hlen, e, he, hitem⟩
    refine ⟨arr.map item, ?_, List.mem_map.mpr ⟨e, he, hitem⟩⟩
    rw [hwrite, List.take_of_length_le hlen, ← root_of_mem he, hlib.parse_write text hwrite]

/-- A record of the snapshot is in its text exactly if it has no NUL. -/
theorem exists_item_iff {arr : List StorageInfo} {info : StorageInfo} (h : info ∈ arr) :
    (∃ e ∈ arr, item e = recordOf info) ↔ info.NulFree := by
  constructor
  · rintro ⟨e, -, he⟩
    exact item_eq_recordOf he
  · intro hfree
    exact ⟨info, h, item_of_nulFree hfree⟩

/-- The record of a file of `size` bytes in the low directory. -/
def smallInfo (name : String) (size : Nat) : StorageInfo where
  mtime_ := 100
  atime_ := 100
  fsize_ := size
  storage_path_ := Bytes.ofString ("./low_storage/" ++ name)
  url_ := Bytes.ofString ("/download/" ++ name)

/-- What JsonCpp writes for such records, given by their names and the digits of their sizes. -/
def smallText (files : List (String × String)) : Bytes :=
  Bytes.ofString ("[" ++ ",".intercalate (files.map fun (name, digits) =>
    "\n\t\x7b\n\t\t\"atime_\" : 100,\n\t\t\"fsize_\" : " ++ digits ++
    ",\n\t\t\"mtime_\" : 100,\n\t\t\"storage_path_\" : \"./low_storage/" ++ name ++
    "\",\n\t\t\"url_\" : \"/download/" ++ name ++ "\"\n\t\x7d") ++ "\n]")

/-- JsonCpp for the table with the record of the file `a` only. -/
def smallJson (size : Nat) (digits : String) : JsonCpp :=
  .single (root [smallInfo "a" size]) (smallText [("a", digits)])

end Storage
