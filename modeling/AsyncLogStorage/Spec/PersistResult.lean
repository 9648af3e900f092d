import AsyncLogStorage.Spec.FileSystem
import AsyncLogStorage.Spec.StorageFile

/-!
# What `Insert` and `Update` report

`Storage` ignores what `Serialize` and `SetContent` return, and `SetContent` ignores
that a write failed. So `Insert` and `Update` return `true` whatever happened to the
storage file, and nothing takes the record out of the table again.

## Key results

- `holdsTable_storage_iff`: when the storage file holds the table after `Storage`
- `persist_truthful_iff`: the result is the truth exactly in those cases
-/

namespace Storage

open DataManager

/-- The storage file holds the serialization of the table, with its records in the order in
    which `GetAll` gives them. -/
def HoldsTable (cfg : Config) (lib : JsonCpp) (fs : FileSystem) (table : Table)
    (order : HashOrder) : Prop :=
  ∃ text f, lib.write (root (getAll table order)) = some text ∧
    FileUtil.fileAt fs cfg.storageInfo = some f ∧ f.content = text

/-- A result of `Insert` or `Update` on the table `before` is the truth about the storage
    file, and if it is `false` the table is as it was. -/
def TellsTruth (cfg : Config) (lib : JsonCpp) (before : Table) (info : StorageInfo)
    (order : HashOrder) (result : Bool × Table × FileSystem) : Prop :=
  (result.1 = true ↔ HoldsTable cfg lib result.2.2 (before.insert info) order) ∧
    (result.1 = false → result.2.1 = before)

/-- The table serializes, and either the file opens and takes the whole text, or it does not
    open and holds that text already. -/
def Persists (cfg : Config) (lib : JsonCpp) (fs : FileSystem) (table : Table)
    (order : HashOrder) (io : WriteOutcome) : Prop :=
  ∃ text, lib.write (root (getAll table order)) = some text ∧
    ((fs.creatable cfg.storageInfo = true ∧ io.opens = true ∧ text.length ≤ io.written) ∨
      (¬(fs.creatable cfg.storageInfo = true ∧ io.opens = true) ∧
        ∃ f, FileUtil.fileAt fs cfg.storageInfo = some f ∧ f.content = text))

section
variable (cfg : Config) (lib : JsonCpp) (fs : FileSystem) (table : Table) (order : HashOrder)
  (io : WriteOutcome)

/-- The file after a `SetContent` that opens it holds the bytes that got to the disk. -/
theorem fileAt_setContent {path body : Bytes} (hcreatable : fs.creatable path = true)
    (hopens : io.opens = true) :
    FileUtil.fileAt (FileUtil.setContent fs path body io).2 path =
      some { content := body.take io.written, mtime := io.time,
             atime := fs.atimeAfter (resolve path) io.time } := by
  simp only [FileUtil.setContent, hcreatable, hopens, Bool.and_self, ↓reduceIte]
  exact FileSystem.fileAt_store _ _ hcreatable

/-- A `SetContent` that does not open the file leaves everything. -/
theorem setContent_of_not_open {path body : Bytes}
    (h : ¬(fs.creatable path = true ∧ io.opens = true)) :
    (FileUtil.setContent fs path body io).2 = fs := by
  simp only [FileUtil.setContent, Bool.and_eq_true, h, ↓reduceIte]

/-- After `Storage` the file holds the table exactly if the table serializes and the whole
    text got into the file, or was there before. -/
theorem holdsTable_storage_iff :
    HoldsTable cfg lib (storage cfg lib fs table order io).2 table order ↔
      Persists cfg lib fs table order io := by
  unfold HoldsTable Persists
  cases hwrite : lib.write (root (getAll table order)) with
  | none => simp only [reduceCtorEq, false_and, exists_false]
  | some text =>
    have hbody : storageText lib (getAll table order) = text := by
      simp only [storageText, JsonUtil.serialize, hwrite]
    simp only [storage, hbody, Option.some.injEq, exists_and_left, exists_eq_left']
    by_cases hopen : fs.creatable cfg.storageInfo = true ∧ io.opens = true
    · -- what was cut off is missing
      rw [fileAt_setContent fs io hopen.1 hopen.2]
      simp only [Option.some.injEq, exists_eq_left', hopen, not_true_eq_false, false_and, or_false,
        true_and, List.take_eq_self_iff]
    · rw [setContent_of_not_open fs io hopen]
      have hnot : ¬(fs.creatable cfg.storageInfo = true ∧ io.opens = true ∧
          text.length ≤ io.written) := fun h => hopen ⟨h.1, h.2.1⟩
      simp only [hnot, hopen, not_false_eq_true, true_and, false_or]

/-- `Insert` with `need_persist_` set, and `Update`, report the truth about the storage file
    exactly if the updated table got into it. -/
theorem persist_truthful_iff (info : StorageInfo) :
    (TellsTruth cfg lib table info order (insert cfg lib fs table info true order io) ↔
      Persists cfg lib fs (table.insert info) order io) ∧
    (TellsTruth cfg lib table info order (update cfg lib fs table info order io) ↔
      Persists cfg lib fs (table.insert info) order io) := by
  -- both return `true`, with what `Storage` left in the file
  have hboth : ∀ after, TellsTruth cfg lib table info order
      (true, after, (storage cfg lib fs (table.insert info) order io).2) ↔
      Persists cfg lib fs (table.insert info) order io := by
    intro after
    rw [← holdsTable_storage_iff]
    simp only [TellsTruth, true_iff, Bool.true_eq_false, false_implies, and_true]
  exact ⟨hboth _, hboth _⟩

end

/-- The storage file cannot be opened, and `Insert` and `Update` return `true`. -/
theorem persist_reports_failure_as_success :
    ¬∀ (cfg : Config) (lib : JsonCpp) (fs : FileSystem) (table : Table) (info : StorageInfo)
      (order : HashOrder) (io : WriteOutcome),
      TellsTruth cfg lib table info order (insert cfg lib fs table info true order io) ∧
        TellsTruth cfg lib table info order (update cfg lib fs table info order io) := by
  intro h
  obtain ⟨⟨hinsert, -⟩, -⟩ := h Config.shipped (smallJson 2 "2") ∅ .empty (smallInfo "a" 2) .held
    { opens := false, written := 0, time := 100 }
  obtain ⟨text, f, -, hfile, -⟩ := hinsert.mp rfl
  have hnone : FileUtil.fileAt ∅ Config.shipped.storageInfo = none := by decide
  have hfile : FileUtil.fileAt ∅ Config.shipped.storageInfo = some f := hfile
  rw [hnone] at hfile
  cases hfile

end Storage
