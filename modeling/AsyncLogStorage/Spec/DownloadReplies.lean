import AsyncLogStorage.Spec.Download

/-!
# The replies of a download

A missing file is replied to twice: the reply about the storage class is not followed by a
return, and the reply `404` comes after it. A url that is not in the table gives an empty
storage path, so the low directory itself becomes the file to send.

## Key results

- `download_replies_once_iff`: when a download replies exactly once
- `download_unknown_iff`: when a url that is not in the table is refused
-/

namespace Storage

open Path (Place)
open Service

section
variable {cfg : Config} {z : Zstd} {io : DownloadIo} {s : Server} {req : Request}
  {fs fs₁ : FileSystem} {info : StorageInfo} {path : Bytes}

/-! ## How often a download replies -/

/-- Nothing is replied about the storage class of a missing file. -/
def OnlyLow (info : StorageInfo) : Prop :=
  info.storage_path_.contains (Bytes.ofString "low_storage") = true ∧
    info.storage_path_.contains (Bytes.ofString "deep_storage") = false

theorem missingReplies_eq_nil : missingReplies info = [] ↔ OnlyLow info := by
  unfold missingReplies OnlyLow
  cases info.storage_path_.contains (Bytes.ofString "deep_storage") with
  | true => simp
  | false => cases info.storage_path_.contains (Bytes.ofString "low_storage") <;> simp

/-- Sending replies once if there is a file, or if its absence is not replied to before. -/
theorem length_replies_sendDownload {table : Table} :
    (sendDownload fs table info path req io).replies.length = 1 ↔
      (fs.find path).isSome = true ∨ OnlyLow info := by
  rw [← missingReplies_eq_nil]
  unfold sendDownload
  cases fs.find path with
  | none => simp
  | some node =>
    -- whether the file opens or not
    cases io.opens <;> simp

/-- After `UnCompress` the file to send is there if it succeeded or there was one before. -/
theorem find_of_unCompress {target : Bytes} {statOk ok : Bool} {read : ReadOutcome}
    {write : WriteOutcome}
    (h : FileUtil.unCompress z fs₁ path target statOk read write = some (ok, fs)) :
    (fs.find target).isSome = true ↔ ok = true ∨ (fs₁.find target).isSome = true := by
  obtain ⟨rfl, rfl⟩ | ⟨rfl, hcreatable, -, body, unpacked, -, -, rfl⟩ := unCompress_cases h
  · simp
  · rw [FileSystem.find_store _ _ hcreatable]
    simp

/-- A download of the record gets to its replies, and then there is a file to send or the
    record's path mentions `low_storage` only. -/
def RepliesOnce (cfg : Config) (z : Zstd) (io : DownloadIo) (fs : FileSystem)
    (info : StorageInfo) : Prop :=
  io.existsThrows = false ∧
    if info.storage_path_.contains cfg.lowStorageDir then
      (fs.find info.storage_path_).isSome = true ∨ OnlyLow info
    else ∃ fs₁ ok fs₂, FileUtil.createDirectory fs cfg.lowStorageDir io.mkdirThrows = some fs₁ ∧
      FileUtil.unCompress z fs₁ info.storage_path_ (transitPath cfg info) io.statOk io.read
        io.store = some (ok, fs₂) ∧
      (ok = true ∨ (fs₁.find (transitPath cfg info)).isSome = true ∨ OnlyLow info)

/-- What `RepliesOnce` says of the file that was prepared. -/
theorem repliesOnce_iff : RepliesOnce cfg z io fs info ↔
    io.existsThrows = false ∧ ∃ fs' target, prepareDownload cfg z fs info io = (fs', some target) ∧
      ((fs'.find target).isSome = true ∨ OnlyLow info) := by
  unfold RepliesOnce
  refine and_congr_right fun _ => ?_
  split
  · rename_i hlow
    constructor
    · intro h
      exact ⟨fs, info.storage_path_, prepareDownload_eq_some.mpr (.inl ⟨hlow, rfl, rfl⟩), h⟩
    · rintro ⟨fs', target, hprepare, h⟩
      obtain ⟨-, rfl, rfl⟩ | ⟨hdeep, -⟩ := prepareDownload_eq_some.mp hprepare
      · exact h
      · rw [hlow] at hdeep
        cases hdeep
  · rename_i hlow
    constructor
    · rintro ⟨fs₁, ok, fs₂, hdir, hunpack, h⟩
      have hprepare : prepareDownload cfg z fs info io = (fs₂, some (transitPath cfg info)) :=
        prepareDownload_eq_some.mpr (.inr ⟨by simpa using hlow, rfl, fs₁, ok, hdir, hunpack⟩)
      rw [← or_assoc, ← find_of_unCompress hunpack] at h
      exact ⟨fs₂, transitPath cfg info, hprepare, h⟩
    · rintro ⟨fs₂, target, hprepare, h⟩
      obtain ⟨hlow', -⟩ | ⟨-, rfl, fs₁, ok, hdir, hunpack⟩ := prepareDownload_eq_some.mp hprepare
      · exact absurd hlow' hlow
      · rw [find_of_unCompress hunpack, or_assoc] at h
        exact ⟨fs₁, ok, fs₂, hdir, hunpack, h⟩

end

/-- A download replies exactly once if the path decodes, nothing throws and the file to send is
    there, or it is missing and the path of its record mentions `low_storage` only. -/
theorem download_replies_once_iff (cfg : Config) (z : Zstd) (io : DownloadIo) (s : Server)
    (req : Request) :
    (download cfg z io s req).replies.length = 1 ↔
      ∃ path, urlDecode req.path = some path ∧
        RepliesOnce cfg z io s.fs (downloadInfo io s path) := by
  constructor
  · intro h
    obtain hnil | ⟨path, fs, target, hpath, hprepare, hexists, hsend⟩ :=
      download_cases cfg z io s req
    · rw [hnil] at h
      simp at h
    · rw [hsend, length_replies_sendDownload] at h
      exact ⟨path, hpath, repliesOnce_iff.mpr ⟨hexists, fs, target, hprepare, h⟩⟩
  · rintro ⟨path, hpath, h⟩
    obtain ⟨hexists, fs, target, hprepare, hfound⟩ := repliesOnce_iff.mp h
    rw [download_eq_sendDownload hpath hprepare hexists]
    exact length_replies_sendDownload.mpr hfound

/-- The stored file of a deep record is gone: the reply `500` is followed by `404`. -/
theorem download_not_replies_once :
    ¬∀ (cfg : Config) (z : Zstd) (io : DownloadIo) (s : Server) (req : Request),
      (download cfg z io s req).replies.length = 1 := by
  have htwo : (download Config.shipped storedZstd wholeDownload (deepServer ∅)
      smallDownload).replies.length = 2 := by decide
  intro h
  rw [h] at htwo
  cases htwo

/-! ## Urls that are not in the table -/

/-- The request is refused: the replies are client errors, and the files stay. -/
def Refused (s : Server) (out : Outcome) : Prop :=
  out.replies ≠ [] ∧ (∀ r ∈ out.replies, 400 ≤ r.code ∧ r.code < 500) ∧ out.server.fs = s.fs

section
variable {cfg : Config} {z : Zstd} {io : DownloadIo} {s : Server} {req : Request}
  {fs : FileSystem} {table : Table} {info : StorageInfo} {path : Bytes}

variable (io) in
theorem storage_path_downloadInfo (h : s.table.lookup path = none) :
    (downloadInfo io s path).storage_path_ = [] := by
  simp [downloadInfo, DataManager.getOneByURL, h]

/-- What is there is no client error. -/
theorem code_sendDownload_of_find (h : (fs.find path).isSome = true) :
    ∃ r, (sendDownload fs table info path req io).replies = [r] ∧
      (r.code = 200 ∨ r.code = 206 ∨ r.code = 500) := by
  obtain ⟨node, hnode⟩ := Option.isSome_iff_exists.mp h
  unfold sendDownload
  rw [hnode]
  cases io.opens with
  | false => simp
  | true =>
    simp only [Bool.not_true, Bool.false_eq_true, ↓reduceIte, List.cons.injEq, and_true,
      exists_eq_left']
    -- with or without a matching `If-Range`
    split
    · exact .inr (.inl rfl)
    · exact .inl rfl

/-- A missing file of a record without a path is refused. -/
theorem refused_sendDownload (hinfo : info.storage_path_ = []) (h : s.fs.find path = none) :
    Refused s (sendDownload s.fs table info path req io) := by
  have hmissing : missingReplies info = [reply 400 "file not exists"] := by
    have hdeep : ¬Bytes.ofString "deep_storage" <:+: [] := by decide
    have hlow : ¬Bytes.ofString "low_storage" <:+: [] := by decide
    simp [missingReplies, hinfo, Bytes.contains, hdeep, hlow]
  unfold sendDownload
  simp [Refused, h, hmissing, reply]

/-- A url that is not in the table is refused only if the low directory is configured as the
    empty path. Otherwise that directory is made, found and sent. -/
theorem download_unknown_iff (hpath : urlDecode req.path = some path)
    (hlookup : s.table.lookup path = none) :
    Refused s (download cfg z io s req) ↔ cfg.lowStorageDir = [] ∧ io.existsThrows = false := by
  have hinfo := storage_path_downloadInfo io hlookup
  constructor
  · rintro ⟨hne, hcodes, -⟩
    obtain hnil | ⟨path', fs, target, hpath', hprepare, hexists, hsend⟩ :=
      download_cases cfg z io s req
    · exact absurd hnil hne
    rw [hpath] at hpath'
    cases hpath'
    refine ⟨?_, hexists⟩
    obtain ⟨hlow, -⟩ | ⟨-, rfl, fs₁, ok, hdir, hunpack⟩ := prepareDownload_eq_some.mp hprepare
    · -- only the empty path is found in the empty path
      rw [hinfo, Bytes.contains_iff] at hlow
      exact List.eq_nil_of_infix_nil hlow
    · have htransit : transitPath cfg (downloadInfo io s path) = cfg.lowStorageDir := by
        rw [transitPath, hinfo]
        exact List.append_nil _
      rw [htransit] at hunpack hsend
      have hfound := (find_of_unCompress hunpack).mpr (.inr (find_createDirectory hdir))
      obtain ⟨r, hr, hcode⟩ := code_sendDownload_of_find hfound
      have hrefused := hcodes r (by rw [hsend, hr]; exact List.mem_singleton_self r)
      omega
  · rintro ⟨hlow, hexists⟩
    have hprepare : prepareDownload cfg z s.fs (downloadInfo io s path) io = (s.fs, some []) := by
      apply prepareDownload_eq_some.mpr
      rw [hinfo, hlow]
      exact .inl ⟨rfl, rfl, rfl⟩
    rw [download_eq_sendDownload hpath hprepare hexists]
    exact refused_sendDownload hinfo rfl

end

/-- Without a low directory the url `/download/a` is refused. -/
theorem download_unknown_small :
    Refused ⟨∅, .empty⟩ (download { Config.shipped with lowStorageDir := [] } storedZstd
      wholeDownload ⟨∅, .empty⟩ smallDownload) :=
  (download_unknown_iff urlDecode_smallDownload (Table.lookup_empty _)).mpr ⟨rfl, rfl⟩

/-- On a fresh server that url is answered with `200`. -/
theorem download_unknown_not_refused :
    ¬∀ (cfg : Config) (z : Zstd) (io : DownloadIo) (s : Server) (req : Request) (path : Bytes),
      urlDecode req.path = some path → route path = .download → s.table.lookup path = none →
      Refused s (download cfg z io s req) := by
  have hcode : ∃ r ∈ (download Config.shipped storedZstd wholeDownload ⟨∅, .empty⟩
      smallDownload).replies, r.code = 200 := by decide
  intro h
  obtain ⟨r, hmem, hr⟩ := hcode
  have hroute : route (Config.shipped.downloadPrefix ++ Bytes.ofString "a") = .download := by decide
  have hrefused := (h Config.shipped storedZstd wholeDownload ⟨∅, .empty⟩ smallDownload _
    urlDecode_smallDownload hroute (Table.lookup_empty _)).2.1 r hmem
  omega

end Storage
