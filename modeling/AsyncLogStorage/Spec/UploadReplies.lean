import AsyncLogStorage.Spec.Upload

/-!
# The replies of an upload

An upload turns a header that is absent into a string, which throws, and so does a name
that is not base64. The checks that have a reply of their own are the ones before and after
the headers are read.

## Key results

- `upload_answered_iff`: when an upload replies exactly once and returns
-/

namespace Storage

open Service

/-- The handler returns, and it has sent one reply. -/
def Answered (out : Outcome) : Prop := out.replies.length = 1 ∧ out.exit = .returned

section
variable {cfg : Config} {z : Zstd} {lib : JsonCpp} {io : UploadIo} {s : Server} {req : Request}

/-- The request has a body, and it is empty, or it fits into a string and is not copied, or
    both headers are there and the file name is base64. -/
def Readable (io : UploadIo) (req : Request) : Prop :=
  ∃ content, req.body = some content ∧ (content = [] ∨
    content.length ≤ FileUtil.stringMaxSize ∧ (io.copies = false ∨
      ∃ header fileName storageType, req.fileName = some header ∧
        Base64.base64Decode header = some fileName ∧ req.storageType = some storageType))

variable (cfg) in
/-- Reading a request ends with a reply or a target exactly if it is readable. -/
theorem uploadTarget_readable_iff : Readable io req ↔
    (∃ r, uploadTarget cfg io req = .error (.replied r)) ∨
      ∃ t, uploadTarget cfg io req = .ok t := by
  unfold Readable uploadTarget
  cases req.body with
  | none => simp
  | some content =>
    simp only [List.length_eq_zero_iff, Option.some.injEq, exists_eq_left']
    by_cases hnil : content = []
    · simp [hnil]
    by_cases hsize : FileUtil.stringMaxSize < content.length
    · simp [hnil, hsize, Nat.not_le_of_lt hsize]
    have hle : content.length ≤ FileUtil.stringMaxSize := by omega
    cases io.copies with
    | false => simp [hnil, hsize, hle]
    | true =>
      cases req.fileName with
      | none => simp [hnil, hsize]
      | some header =>
        cases hdecode : Base64.base64Decode header with
        | none => simp [hnil, hsize, hdecode]
        | some fileName =>
          cases req.storageType with
          | none => simp [hnil, hsize, hdecode]
          -- an illegal storage type has a reply of its own
          | some storageType => cases hdir : storageDir cfg storageType <;>
              simp [hnil, hsize, hle, hdecode, hdir]

/-- Once the target is known, the upload returns with a reply if the directory can be made,
    `pack` does not throw, and the file does not open or `fs::exists` does not throw for it. -/
theorem upload_answered_of_target {t : UploadTarget} (htarget : uploadTarget cfg io req = .ok t) :
    Answered (upload cfg z lib io s req) ↔
      ∃ fs, FileUtil.createDirectory s.fs t.dir io.mkdirThrows = some fs ∧
        storeThrows z t = false ∧
        ((storeUpload z fs t io.store).1 = false ∨ io.stat.existsThrows = false) := by
  unfold upload Answered
  rw [htarget]
  simp only
  cases FileUtil.createDirectory s.fs t.dir io.mkdirThrows with
  | none => simp [Rejection.outcome]
  | some fs =>
    simp only [Option.some.injEq, exists_eq_left']
    cases storeThrows z t with
    | true => simp [Rejection.outcome]
    | false =>
      simp only [Bool.false_eq_true, ↓reduceIte, true_and]
      cases hstore : storeUpload z fs t io.store with
      | mk ok fs' => cases ok with
        | false => simp
        | true =>
          -- `NewStorageInfo` is the last call that throws
          simp only [recordUpload, StorageInfo.newStorageInfo, FileUtil.fileExists,
            Bool.true_eq_false, false_or]
          cases io.stat.existsThrows with
          | true => simp
          | false => cases (fs'.find t.path).isSome <;> simp

end

/-- An upload replies exactly once and returns if the request is readable and, once it has a
    target, the directory can be made, `pack` does not throw, and `fs::exists` does not throw for
    a file that was opened. -/
theorem upload_answered_iff (cfg : Config) (z : Zstd) (lib : JsonCpp) (io : UploadIo) (s : Server)
    (req : Request) :
    Answered (upload cfg z lib io s req) ↔ Readable io req ∧
      ∀ t, uploadTarget cfg io req = .ok t →
        ∃ fs, FileUtil.createDirectory s.fs t.dir io.mkdirThrows = some fs ∧
          storeThrows z t = false ∧
          ((storeUpload z fs t io.store).1 = false ∨ io.stat.existsThrows = false) := by
  rw [uploadTarget_readable_iff cfg]
  cases htarget : uploadTarget cfg io req with
  | ok t => simp [upload_answered_of_target htarget]
  | error rejection =>
    have hout : upload cfg z lib io s req = rejection.outcome s := by
      simp only [upload, htarget]
    rw [hout]
    cases rejection <;> simp [Answered, Rejection.outcome]

/-- Without a `FileName` header an exception leaves the handler, and no reply is sent. -/
theorem upload_not_answered :
    ¬∀ (cfg : Config) (z : Zstd) (lib : JsonCpp) (io : UploadIo) (s : Server) (req : Request),
      Answered (upload cfg z lib io s req) := by
  intro h
  have hthrew : (upload Config.shipped storedZstd silentJson (smallIo 2) ⟨∅, .empty⟩
      { smallUpload with fileName := none }).exit = .threw := rfl
  have hreturned := (h Config.shipped storedZstd silentJson (smallIo 2) ⟨∅, .empty⟩
    { smallUpload with fileName := none }).2
  rw [hthrew] at hreturned
  cases hreturned

end Storage
