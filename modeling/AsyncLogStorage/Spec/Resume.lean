import AsyncLogStorage.Spec.DownloadFaithful

/-!
# Resumed downloads

A client that holds the first part of a file asks for the rest with `If-Range` and
`Range`. `Download` compares the first header with the current ETag and reads the second
nowhere: the reply is 206 and carries the file from its first byte on.

## Key results

- `sendDownload_retrans`: the reply to a request with the current ETag
- `download_completes_iff`: when the body of a 206 reply is what the client is missing
- `sendsRest_deep_iff`: what that takes of the reads and writes of a deep entry
-/

namespace Storage

open Service

/-- A request with its `Range` header. -/
structure RangedRequest extends Request where
  range : Option Bytes

/-- `Download`, which asks for no header called `Range`. -/
def Service.downloadRanged (cfg : Config) (z : Zstd) (io : DownloadIo) (s : Server)
    (req : RangedRequest) : Outcome :=
  download cfg z io s req.toRequest

/-- The request of a client that holds `held` and asks for the rest of the entry. -/
structure Resumes (info : StorageInfo) (held : Bytes) (req : RangedRequest) : Prop where
  ifRange : req.ifRange = some (getETag info)
  range : req.range = some (Bytes.ofString ("bytes=" ++ toString held.length ++ "-"))

/-- What the client holds and the body of a 206 reply are together the content. -/
def CompletesFile (content held : Bytes) (replies : List Reply) : Prop :=
  ∀ r ∈ replies, r.code = 206 → held ++ r.body = content

section
variable (cfg : Config) (z : Zstd) (io : DownloadIo) (fs : FileSystem) (info : StorageInfo)

/-- The node at the path that `Download` looks at: the stored file, or what is at the transit
    path once `UnCompress` has run. -/
def Serves (node : Node) : Prop :=
  if info.storage_path_.contains cfg.lowStorageDir then fs.find info.storage_path_ = some node
  else ∃ fs₁ ok fs₂, FileUtil.createDirectory fs cfg.lowStorageDir io.mkdirThrows = some fs₁ ∧
    FileUtil.unCompress z fs₁ info.storage_path_ (transitPath cfg info) io.statOk io.read io.store =
      some (ok, fs₂) ∧
    fs₂.find (transitPath cfg info) = some node

/-- Nothing goes out, or what the reply takes of the served node is exactly the rest. -/
def SendsRest (rest : Bytes) : Prop :=
  io.existsThrows = true ∨ io.opens = false ∨
    ∀ node, Serves cfg z io fs info node → sentBody io.adds node = rest

/-- With the low directory made sure of: something throws; or the stored file is read whole and
    can be written, and the reply takes exactly the rest of what the write takes; or it is not
    read or not written, and the reply takes exactly the rest of what is there from before. -/
def RestUnpacked (rest : Bytes) : Prop :=
  ReadThrows io fs info ∨
  (∃ f, FileUtil.fileAt fs info.storage_path_ = some f ∧ ReadsAll io f ∧
    (ZstdWrapper.unpack z f.content = none ∨
      TransitOpens cfg io fs info ∧ ∃ unpacked, ZstdWrapper.unpack z f.content = some unpacked ∧
        (if io.adds then unpacked.take io.store.written else []) = rest)) ∨
  (∀ node, fs.find (transitPath cfg info) = some node → sentBody io.adds node = rest) ∧
    ¬∃ f, FileUtil.fileAt fs info.storage_path_ = some f ∧ ReadsAll io f ∧
      TransitOpens cfg io fs info

end

section
variable {cfg : Config} {z : Zstd} {io : DownloadIo} {s : Server} {req : RangedRequest}
  {info : StorageInfo} {held : Bytes}

/-- What is served is what is found where the download was prepared. -/
theorem serves_iff_of_prepared {fs fs' : FileSystem} {target : Bytes} {node : Node}
    (h : prepareDownload cfg z fs info io = (fs', some target)) :
    Serves cfg z io fs info node ↔ fs'.find target = some node := by
  unfold Serves
  obtain ⟨hlow, rfl, rfl⟩ | ⟨hdeep, rfl, fs₁, ok, hdir, hunpack⟩ := prepareDownload_eq_some.mp h
  · rw [if_pos hlow]
  · rw [hdeep, if_neg Bool.false_ne_true]
    constructor
    · rintro ⟨fs₁', ok', fs₂, hdir', hunpack', hfind⟩
      rw [hdir] at hdir'
      cases hdir'
      rw [hunpack] at hunpack'
      cases hunpack'
      exact hfind
    · intro hfind
      exact ⟨fs₁, ok, fs', hdir, hunpack, hfind⟩

/-- A download that was not prepared serves nothing. -/
theorem prepared_of_serves {fs : FileSystem} {node : Node} (h : Serves cfg z io fs info node) :
    ∃ fs' target, prepareDownload cfg z fs info io = (fs', some target) := by
  unfold Serves at h
  split at h
  · rename_i hlow
    exact ⟨fs, _, prepareDownload_eq_some.mpr (.inl ⟨hlow, rfl, rfl⟩)⟩
  · rename_i hdeep
    obtain ⟨fs₁, ok, fs₂, hdir, hunpack, -⟩ := h
    exact ⟨fs₂, _, prepareDownload_eq_some.mpr
      (.inr ⟨by simpa using hdeep, rfl, fs₁, ok, hdir, hunpack⟩)⟩

/-- Where `UnCompress` does not throw, it is the node at the transit path that counts. -/
private theorem restUnpacked_iff {fs fs₂ : FileSystem} {ok : Bool} {rest : Bytes}
    (hsize : ∀ f, FileUtil.fileAt fs info.storage_path_ = some f →
      f.content.length < 9223372036854775808)
    (h : FileUtil.unCompress z fs info.storage_path_ (transitPath cfg info) io.statOk io.read
      io.store = some (ok, fs₂)) :
    RestUnpacked cfg z io fs info rest ↔
      ∀ node, fs₂.find (transitPath cfg info) = some node → sentBody io.adds node = rest := by
  unfold RestUnpacked
  rw [unpacked_iff hsize h]
  obtain ⟨rfl, rfl⟩ | ⟨rfl, hcreatable, -, body, unpacked, hcontent, hunpacked, rfl⟩ :=
    unCompress_cases h
  · rw [if_neg Bool.false_ne_true]
  · obtain ⟨f, hf, hall, rfl⟩ := (getContent_stored_iff hsize).mp hcontent
    rw [if_pos rfl, FileSystem.find_store _ _ hcreatable]
    simp only [hf, Option.some.injEq, exists_eq_left', hall, true_and, hunpacked, forall_eq',
      sentBody]

/-- A reply for a deep entry takes exactly the rest of the served node, in terms of what is read
    and written on the way to it. -/
theorem sendsRest_deep_iff {fs : FileSystem} {rest : Bytes}
    (hsize : ∀ f, FileUtil.fileAt fs info.storage_path_ = some f →
      f.content.length < 9223372036854775808)
    (hdeep : info.storage_path_.contains cfg.lowStorageDir = false) :
    SendsRest cfg z io fs info rest ↔ io.existsThrows = true ∨ io.opens = false ∨
      ∀ fs₁, FileUtil.createDirectory fs cfg.lowStorageDir io.mkdirThrows = some fs₁ →
        RestUnpacked cfg z io fs₁ info rest := by
  have hsize₁ : ∀ fs₁, FileUtil.createDirectory fs cfg.lowStorageDir io.mkdirThrows = some fs₁ →
      ∀ f, FileUtil.fileAt fs₁ info.storage_path_ = some f →
        f.content.length < 9223372036854775808 := by
    intro fs₁ hdir
    rwa [fileAt_createDirectory hdir]
  unfold SendsRest
  refine or_congr_right (or_congr_right ⟨fun hrest fs₁ hdir => ?_, fun hrest node hserves => ?_⟩)
  · cases hunpack : FileUtil.unCompress z fs₁ info.storage_path_ (transitPath cfg info) io.statOk
        io.read io.store with
    | none =>
      obtain hread | ⟨f, hf, hall, hthrow⟩ :=
        (unCompress_throws_iff (hsize₁ fs₁ hdir)).mp hunpack
      · exact .inl hread
      · exact .inr (.inl ⟨f, hf, hall, .inl hthrow⟩)
    | some result =>
      obtain ⟨ok, fs₂⟩ := result
      rw [restUnpacked_iff (hsize₁ fs₁ hdir) hunpack]
      intro node hfind
      apply hrest
      unfold Serves
      rw [hdeep, if_neg Bool.false_ne_true]
      exact ⟨fs₁, ok, fs₂, hdir, hunpack, hfind⟩
  · unfold Serves at hserves
    rw [hdeep, if_neg Bool.false_ne_true] at hserves
    obtain ⟨fs₁, ok, fs₂, hdir, hunpack, hfind⟩ := hserves
    exact (restUnpacked_iff (hsize₁ fs₁ hdir) hunpack).mp (hrest fs₁ hdir) node hfind

/-- A request with the current ETag is replied to with 206 and all of the node. -/
theorem sendDownload_retrans {fs : FileSystem} {table : Table} {path : Bytes} {node : Node}
    {req : Request} (hrange : req.ifRange = some (getETag info))
    (hfind : fs.find path = some node) (hopens : io.opens = true) :
    (sendDownload fs table info path req io).replies =
      [{ reply 206 "breakpoint continuous transmission" with body := sentBody io.adds node }] := by
  unfold sendDownload
  simp only [hfind, hopens, hrange, beq_self_eq_true, Bool.not_true, Bool.false_eq_true, ↓reduceIte]
  cases node with
  | file f => rfl
  | directory => rfl

/-- Without a 206 there is nothing to complete. -/
private theorem completes_of_error {content : Bytes} {replies : List Reply}
    (h : ∀ r ∈ replies, 400 ≤ r.code) : CompletesFile content held replies := by
  intro r hr hcode
  have := h r hr
  omega

private theorem sendDownload_completes_iff {fs : FileSystem} {table : Table} {path rest : Bytes}
    {req : Request} (hrange : req.ifRange = some (getETag info)) :
    CompletesFile (held ++ rest) held (sendDownload fs table info path req io).replies ↔
      io.opens = false ∨ ∀ node, fs.find path = some node → sentBody io.adds node = rest := by
  cases hfind : fs.find path with
  | none =>
    simp only [completes_of_error (sendDownload_error (.inl hfind)), reduceCtorEq, false_implies,
      implies_true, or_true]
  | some node =>
    cases hopens : io.opens with
    | false => simp only [completes_of_error (sendDownload_error (.inr hopens)), true_or]
    | true =>
      rw [sendDownload_retrans hrange hfind hopens]
      simp [CompletesFile, reply, eq_comm]

/-- A served file that holds the part of the client and a rest is sent from its start, so the
    body is never the rest. -/
private theorem sendsRest_iff_of_serves {fs : FileSystem} {f : File} {rest : Bytes}
    (hheld : held ≠ []) (hrest : rest ≠ []) (hserves : Serves cfg z io fs info (.file f))
    (hcontent : f.content = held ++ rest) :
    SendsRest cfg z io fs info rest ↔ io.existsThrows = true ∨ io.opens = false := by
  have hbody : sentBody io.adds (.file f) ≠ rest := by
    simp only [sentBody, hcontent]
    split
    · simpa using hheld
    · exact hrest.symm
  unfold SendsRest
  constructor
  · rintro (hthrows | hopens | hall)
    · exact .inl hthrows
    · exact .inr hopens
    · exact absurd (hall _ hserves) hbody
  · rintro (hthrows | hopens)
    · exact .inl hthrows
    · exact .inr (.inl hopens)

/-- The part that a client holds and the body of the 206 reply to its request for the rest are
    the content exactly if nothing goes out or the reply takes exactly the rest of the served
    node. Where the served file holds the content, nothing goes out. -/
theorem download_completes_iff {url rest : Bytes} (hpath : urlDecode req.path = some url)
    (hlookup : s.table.lookup url = some info) (hreq : Resumes info held req) (hheld : held ≠ [])
    (hrest : rest ≠ []) :
    (CompletesFile (held ++ rest) held (downloadRanged cfg z io s req).replies ↔
      SendsRest cfg z io s.fs info rest) ∧
    ∀ f, Serves cfg z io s.fs info (.file f) → f.content = held ++ rest →
      (SendsRest cfg z io s.fs info rest ↔ io.existsThrows = true ∨ io.opens = false) := by
  refine ⟨?_, fun f hserves hcontent => sendsRest_iff_of_serves hheld hrest hserves hcontent⟩
  have hinfo := downloadInfo_of_lookup io hlookup
  obtain hnil | ⟨path, fs, target, hpath', hprepare, hexists, heq⟩ :=
    download_cases cfg z io s req.toRequest
  · -- an exception before anything was sent
    refine iff_of_true (by simp [downloadRanged, hnil, CompletesFile]) ?_
    cases hexists : io.existsThrows with
    | true => exact .inl hexists
    | false =>
      right; right
      intro node hserves
      obtain ⟨fs, target, hprepare⟩ := prepared_of_serves hserves
      rw [← hinfo] at hprepare
      rw [download_eq_sendDownload hpath hprepare hexists] at hnil
      exact absurd hnil sendDownload_replies_ne_nil
  · rw [hpath] at hpath'
    cases hpath'
    rw [hinfo] at hprepare heq
    rw [downloadRanged, heq, sendDownload_completes_iff hreq.ifRange]
    simp only [SendsRest, hexists, Bool.false_eq_true, false_or, serves_iff_of_prepared hprepare]

end

/-- A client that holds the first byte of `/download/a` asks for the rest. -/
def smallResume : RangedRequest where
  path := smallDownload.path
  body := none
  fileName := none
  storageType := none
  ifRange := some (Bytes.ofString "a-11-100")
  range := some (Bytes.ofString "bytes=1-")

theorem resumes_smallResume : Resumes deepInfo (Bytes.ofString "h") smallResume :=
  ⟨by decide, by decide⟩

/-- The file does not open, so nothing goes out. -/
theorem download_completes_unopened :
    CompletesFile (Bytes.ofString "h" ++ Bytes.ofString "i") (Bytes.ofString "h")
      (downloadRanged Config.shipped headerZstd { wholeDownload with opens := false }
        (deepServer (deepFiles hiFrame)) smallResume).replies :=
  (download_completes_iff urlDecode_smallDownload (lookup_deepServer _) resumes_smallResume
    (by decide) (by decide)).1.mpr (.inr (.inl rfl))

/-- The reply to it carries both bytes of the file. -/
theorem download_resends_all :
    ¬∀ (cfg : Config) (z : Zstd) (io : DownloadIo) (s : Server) (req : RangedRequest)
      (url held rest : Bytes) (info : StorageInfo), z.Correct → urlDecode req.path = some url →
      s.table.lookup url = some info → OwnBody cfg z s.fs info (held ++ rest) → held ≠ [] →
      rest ≠ [] → Resumes info held req →
      CompletesFile (held ++ rest) held (downloadRanged cfg z io s req).replies := by
  have hreply : (downloadRanged Config.shipped headerZstd wholeDownload
      (deepServer (deepFiles hiFrame)) smallResume).replies =
        [{ reply 206 "breakpoint continuous transmission" with body := Bytes.ofString "hi" }] := by
    decide
  have hdeep : deepInfo.storage_path_.contains Config.shipped.lowStorageDir = false := by decide
  have hframe : headerZstd.Decompresses hiFrame (Bytes.ofString "h" ++ Bytes.ofString "i") :=
    ⟨by decide, 2, by decide⟩
  have hown : OwnBody Config.shipped headerZstd (deepFiles hiFrame) deepInfo
      (Bytes.ofString "h" ++ Bytes.ofString "i") := by
    refine ⟨_, rfl, ?_⟩
    rw [if_neg (by simp [hdeep])]
    exact hframe
  intro h
  have hcompletes := h Config.shipped headerZstd wholeDownload (deepServer (deepFiles hiFrame))
    smallResume _ (Bytes.ofString "h") (Bytes.ofString "i") deepInfo headerZstd_correct
    urlDecode_smallDownload (lookup_deepServer _) hown (by decide) (by decide) resumes_smallResume
  rw [hreply] at hcompletes
  exact absurd (hcompletes _ (List.mem_singleton_self _) rfl) (by decide)

end Storage
