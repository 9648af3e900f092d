import AsyncLogStorage.Native.ListPage

/-!
# The text of the list

Of the text that `generateModernFileList` makes of a file, only the name and the url are chosen
by those who upload files. All the rest is literals of the source, and plain bytes: those of
words, numerals and times.

## Key results

- `fileItem_eq`: what stands around the name and the url
- `isPlain_of_mem_formatSize`, `isPlain_of_mem_timetoStr`: sizes and times are plain
-/

namespace Storage

/-! ## Plain bytes -/

/-- A letter, a digit, a blank, a line feed, one of `-`, `.` and `:`, or part of a character
    that is not ASCII. -/
def isPlain (b : UInt8) : Bool :=
  b = 10 ∨ b = 32 ∨ b = 45 ∨ b = 46 ∨ b = 58 ∨ (48 ≤ b ∧ b ≤ 57) ∨ (65 ≤ b ∧ b ≤ 90) ∨
    (97 ≤ b ∧ b ≤ 122) ∨ 128 ≤ b

theorem isPlain_of_mem_nat {n : Nat} {b : UInt8} (h : b ∈ Bytes.ofString (toString n)) :
    isPlain b = true := by
  have hdigit := Bytes.isDigit_of_mem_nat h
  simp only [isPlain, hdigit, and_self, true_or, or_true, decide_true]

theorem isPlain_of_mem_int {n : Int} {b : UInt8} (h : b ∈ Bytes.ofString (toString n)) :
    isPlain b = true := by
  cases n with
  | ofNat n => exact isPlain_of_mem_nat h
  | negSucc n =>
    rw [Bytes.ofString_negSucc] at h
    obtain rfl | h := List.mem_cons.mp h
    · decide
    · exact isPlain_of_mem_nat h

/-- A literal of plain bytes. -/
theorem isPlain_of_mem_literal {s : String} {b : UInt8}
    (h : (Bytes.ofString s).all isPlain = true) (hb : b ∈ Bytes.ofString s) :
    isPlain b = true :=
  List.all_eq_true.mp h b hb

theorem isPlain_of_mem_twoDigits {n : Nat} {b : UInt8} (h : b ∈ LocalTime.twoDigits n) :
    isPlain b = true := by
  unfold LocalTime.twoDigits at h
  split at h
  · rw [Bytes.ofString_append] at h
    obtain h | h := List.mem_append.mp h
    · exact isPlain_of_mem_literal (by decide) h
    · exact isPlain_of_mem_nat h
  · exact isPlain_of_mem_nat h

theorem isPlain_of_mem_threeWide {n : Nat} {b : UInt8} (h : b ∈ LocalTime.threeWide n) :
    isPlain b = true := by
  unfold LocalTime.threeWide at h
  split at h
  · rw [Bytes.ofString_append] at h
    obtain h | h := List.mem_append.mp h
    · exact isPlain_of_mem_literal (by decide) h
    · exact isPlain_of_mem_nat h
  · rw [Bytes.ofString_append] at h
    obtain h | h := List.mem_append.mp h
    · exact isPlain_of_mem_literal (by decide) h
    · exact isPlain_of_mem_nat h

theorem isPlain_of_mem_wdayName {wday : Fin 7} {b : UInt8} (h : b ∈ LocalTime.wdayName wday) :
    isPlain b = true := by
  unfold LocalTime.wdayName at h
  split at h <;> exact isPlain_of_mem_literal (by decide) h

theorem isPlain_of_mem_monName {mon : Nat} {b : UInt8} (h : b ∈ LocalTime.monName mon) :
    isPlain b = true := by
  unfold LocalTime.monName at h
  split at h <;> exact isPlain_of_mem_literal (by decide) h

theorem isPlain_of_mem_unitName {unit_index : Nat} {b : UInt8} (h : b ∈ unitName unit_index) :
    isPlain b = true := by
  unfold unitName at h
  split at h <;> exact isPlain_of_mem_literal (by decide) h

/-- Sizes are plain. -/
theorem isPlain_of_mem_formatSize {bytes : Nat} {b : UInt8} (h : b ∈ formatSize bytes) :
    isPlain b = true := by
  simp only [formatSize, List.mem_append] at h
  obtain (((h | h) | h) | h) | h := h
  · exact isPlain_of_mem_nat h
  · exact isPlain_of_mem_literal (by decide) h
  · exact isPlain_of_mem_twoDigits h
  · exact isPlain_of_mem_literal (by decide) h
  · exact isPlain_of_mem_unitName h

/-- Times are plain. -/
theorem isPlain_of_mem_timetoStr {zone : TimeZone} {t : Int} {b : UInt8}
    (h : b ∈ timetoStr zone t) : isPlain b = true := by
  simp only [timetoStr, LocalTime.ctime, List.mem_append] at h
  obtain (((((((((((h | h) | h) | h) | h) | h) | h) | h) | h) | h) | h) | h) | h := h
  · exact isPlain_of_mem_wdayName h
  · exact isPlain_of_mem_literal (by decide) h
  · exact isPlain_of_mem_monName h
  · exact isPlain_of_mem_threeWide h
  · exact isPlain_of_mem_literal (by decide) h
  · exact isPlain_of_mem_twoDigits h
  · exact isPlain_of_mem_literal (by decide) h
  · exact isPlain_of_mem_twoDigits h
  · exact isPlain_of_mem_literal (by decide) h
  · exact isPlain_of_mem_twoDigits h
  · exact isPlain_of_mem_literal (by decide) h
  · exact isPlain_of_mem_int h
  · exact isPlain_of_mem_literal (by decide) h

/-! ## What stands around the name and the url -/

/-- The name that the list shows. -/
def listedName (file : StorageInfo) : Bytes := FileUtil.fileName file.storage_path_

/-- The storage type that the list shows. -/
def listedClass (file : StorageInfo) : Bytes :=
  Bytes.ofString
    (if Service.listedStorageType file = Bytes.ofString "deep" then "深度存储" else "普通存储")

theorem isPlain_of_mem_listedClass {file : StorageInfo} {b : UInt8} (h : b ∈ listedClass file) :
    isPlain b = true := by
  unfold listedClass at h
  split at h <;> exact isPlain_of_mem_literal (by decide) h

/-- What stands before the name. -/
def itemStart : Bytes :=
  Bytes.ofString "<div class='file-item'><div class='file-info'><span>📄"

/-- What stands between the name and the url. -/
def itemMiddle (zone : TimeZone) (file : StorageInfo) : Bytes :=
  Bytes.ofString "</span><span class='file-type'>" ++ (listedClass file ++
    (Bytes.ofString "</span><span>" ++ (formatSize file.fsize_ ++
    (Bytes.ofString "</span><span>" ++ (timetoStr zone file.mtime_ ++
    Bytes.ofString "</span></div><button onclick=\"window.location='")))))

/-- The bytes of the tags between the name and the url, which are not plain. -/
def isTagByte (b : UInt8) : Bool := b = 60 ∨ b = 62 ∨ b = 47 ∨ b = 61 ∨ b = 39 ∨ b = 34

theorem mem_itemMiddle {zone : TimeZone} {file : StorageInfo} {b : UInt8}
    (h : b ∈ itemMiddle zone file) : isPlain b = true ∨ isTagByte b = true := by
  have hliteral : ∀ s : String, (Bytes.ofString s).all (fun b => isPlain b || isTagByte b) = true →
      b ∈ Bytes.ofString s → isPlain b = true ∨ isTagByte b = true := by
    intro s hall hb
    have hor := List.all_eq_true.mp hall b hb
    rwa [Bool.or_eq_true] at hor
  simp only [itemMiddle, List.mem_append] at h
  obtain h | h | h | h | h | h | h := h
  · exact hliteral _ (by decide) h
  · exact .inl (isPlain_of_mem_listedClass h)
  · exact hliteral _ (by decide) h
  · exact .inl (isPlain_of_mem_formatSize h)
  · exact hliteral _ (by decide) h
  · exact .inl (isPlain_of_mem_timetoStr h)
  · exact hliteral _ (by decide) h

/-- What stands behind the url. -/
def itemEnd : Bytes := Bytes.ofString "'\">⬇️ 下载</button></div>"

theorem getLast?_itemMiddle (zone : TimeZone) (file : StorageInfo) :
    (itemMiddle zone file).getLast? = some 39 := by
  have hlast : (Bytes.ofString "</span></div><button onclick=\"window.location='").getLast? =
      some 39 := by decide
  simp only [itemMiddle, List.getLast?_append, hlast, Option.some_or]

/-- What stands before the first file. -/
def listStart : Bytes := Bytes.ofString "<div class='file-list'><h3>已上传文件</h3>"

/-- What stands behind the last one. -/
def listEnd : Bytes := Bytes.ofString "</div>"

/-- Literals that follow each other are one. -/
theorem ofString_append_assoc (s t : String) (u : Bytes) :
    Bytes.ofString s ++ (Bytes.ofString t ++ u) = Bytes.ofString (s ++ t) ++ u := by
  rw [Bytes.ofString_append, List.append_assoc]

theorem fileItem_eq (zone : TimeZone) (file : StorageInfo) :
    fileItem zone file =
      itemStart ++ (listedName file ++ (itemMiddle zone file ++ (file.url_ ++ itemEnd))) := by
  have hend : itemEnd = Bytes.ofString "'\">⬇️ 下载</button>" ++ Bytes.ofString "</div>" := by
    rw [← Bytes.ofString_append]
    rfl
  unfold fileItem itemStart itemMiddle listedName
  rw [hend]
  show _ ++ listedClass file ++ _ ++ _ ++ _ ++ _ ++ _ ++ _ ++ _ ++ _ ++ _ ++ _ ++ _ ++ _ = _
  -- the literals that stand together are put together
  simp only [List.append_assoc, ofString_append_assoc]
  rfl

/-- The list, with its items one after the other. -/
theorem generateModernFileList_eq (zone : TimeZone) (files : List StorageInfo) :
    generateModernFileList zone files =
      listStart ++ (files.flatMap (fileItem zone) ++ listEnd) := by
  simp only [generateModernFileList, listStart, listEnd, List.append_assoc]

end Storage
