import AsyncLogStorage.Spec.Download

/-!
# Whose bytes a download sends

A download sends whatever is at the path it looks at. For a file outside the low directory
that is what `UnCompress` wrote there, or, if `UnCompress` failed, what was there before. And
what it wrote is the stored file itself where zstd reported an error.

## Key results

- `download_faithful_iff`: when a download sends the entry's own file or an error
-/

namespace Storage

open Path (Place)
open Service

/-- The bytes are a zstd frame with that content. -/
def Zstd.Decompresses (z : Zstd) (frame content : Bytes) : Prop :=
  frame ≠ [] ∧ ∃ capacity, z.decompress capacity frame = some content

/-- What the documentation of zstd says of `ZSTD_decompress`: the capacity of the buffer decides
    whether there is room for the content of a frame, and not what the content is. -/
def Zstd.OneContent (z : Zstd) : Prop :=
  ∀ frame content content', z.Decompresses frame content → z.Decompresses frame content' →
    content = content'

section
variable (cfg : Config) (z : Zstd) (io : DownloadIo) (fs : FileSystem) (info : StorageInfo)

/-- The body is what the stored file of the record holds, decompressed unless it is in the
    low directory. -/
def OwnBody (body : Bytes) : Prop :=
  ∃ f, FileUtil.fileAt fs info.storage_path_ = some f ∧
    if info.storage_path_.contains cfg.lowStorageDir then body = f.content
    else z.Decompresses f.content body

/-- The stored file is there and holds a frame that can be decompressed. -/
def HasFrame : Prop :=
  ∃ f content, FileUtil.fileAt fs info.storage_path_ = some f ∧ z.Decompresses f.content content

/-- `UnCompress` reports a failure. -/
def UnCompressFails : Prop :=
  ∃ fs₁ fs₂, FileUtil.createDirectory fs cfg.lowStorageDir io.mkdirThrows = some fs₁ ∧
    FileUtil.unCompress z fs₁ info.storage_path_ (transitPath cfg info) io.statOk io.read io.store =
      some (false, fs₂)

/-- A download of the record is faithful, or it fails. -/
structure Faithful (replies : List Reply) : Prop where
  own : ∀ r ∈ replies, r.code = 200 ∨ r.code = 206 → OwnBody cfg z fs info r.body
  error : info.storage_path_.contains cfg.lowStorageDir = false →
    UnCompressFails cfg z io fs info ∨ ¬HasFrame z fs info → ∀ r ∈ replies, 400 ≤ r.code

/-- `GetContent` gets every byte of the file. -/
structure ReadsAll (f : File) : Prop where
  stat : io.statOk = true
  opens : io.read.opens = true
  delivered : f.content.length ≤ io.read.delivered
  fits : f.content.length ≤ FileUtil.stringMaxSize

/-- `GetContent` throws: what it takes for the size is too long for a string. -/
def ReadThrows : Prop :=
  io.read.opens = true ∧ ∃ node, fs.find info.storage_path_ = some node ∧
    (io.statOk = false ∨ ∃ f, node = .file f ∧ FileUtil.stringMaxSize < f.content.length)

/-- The file is a frame, and its content gets through `unpack`, the write and the reply. It may
    also get through where `unpack` hands back a frame that begins with its own content, and
    the write is cut right behind that. -/
def ContentThrough (f : File) : Prop :=
  ∃ content, z.Decompresses f.content content ∧ (io.adds = true ∨ content = []) ∧
    (ZstdWrapper.unpack z f.content = some content ∧ content.length ≤ io.store.written ∨
      ZstdWrapper.unpack z f.content = some f.content ∧ content <+: f.content ∧
        (io.store.written = content.length ∨ io.adds = false))

/-- The transit file can be written. -/
def TransitOpens : Prop :=
  fs.creatable (transitPath cfg info) = true ∧ io.store.opens = true

/-- With the low directory made sure of: something throws; or the stored file is read whole,
    can be written, and its content gets through; or it is not read or not written, and there is
    nothing from before at the transit path. -/
def SendsUnpacked : Prop :=
  ReadThrows io fs info ∨
  (∃ f, FileUtil.fileAt fs info.storage_path_ = some f ∧ ReadsAll io f ∧
    (ZstdWrapper.unpack z f.content = none ∨
      TransitOpens cfg io fs info ∧ ContentThrough z io f)) ∨
  fs.find (transitPath cfg info) = none ∧
    ¬∃ f, FileUtil.fileAt fs info.storage_path_ = some f ∧ ReadsAll io f ∧
      TransitOpens cfg io fs info

/-- The file that a download looks at does not open, or the right bytes get through. -/
def SendsOwnFile : Prop :=
  io.existsThrows = true ∨ io.opens = false ∨
    if info.storage_path_.contains cfg.lowStorageDir then
      fs.find info.storage_path_ = none ∨
        ∃ f, FileUtil.fileAt fs info.storage_path_ = some f ∧ (io.adds = true ∨ f.content = [])
    else ∀ fs₁, FileUtil.createDirectory fs cfg.lowStorageDir io.mkdirThrows = some fs₁ →
      SendsUnpacked cfg z io fs₁ info

end

section
variable {cfg : Config} {z : Zstd} {io : DownloadIo} {s : Server} {req : Request}
  {fs : FileSystem} {table : Table} {info : StorageInfo} {path : Bytes} {replies : List Reply}

/-- Errors are faithful. -/
theorem faithful_of_error (h : ∀ r ∈ replies, 400 ≤ r.code) :
    Faithful cfg z io fs info replies := by
  constructor
  · intro r hr hcode
    have := h r hr
    omega
  · exact fun _ _ => h

/-- A single success is faithful if its body is the entry's own and `UnCompress` did not fail. -/
theorem faithful_singleton_iff {r : Reply} (hcode : r.code = 200 ∨ r.code = 206) :
    Faithful cfg z io fs info [r] ↔ OwnBody cfg z fs info r.body ∧
      (info.storage_path_.contains cfg.lowStorageDir = false →
        ¬UnCompressFails cfg z io fs info) := by
  constructor
  · intro h
    refine ⟨h.own r (List.mem_singleton_self r) hcode, fun hdeep hfails => ?_⟩
    have := h.error hdeep (.inl hfails) r (List.mem_singleton_self r)
    omega
  · rintro ⟨hown, hworks⟩
    constructor
    · intro r' hr' _
      rw [List.mem_singleton.mp hr']
      exact hown
    · intro hdeep hbad
      obtain hfails | hframe := hbad
      · exact absurd hfails (hworks hdeep)
      · -- the body is the content of a frame
        obtain ⟨f, hf, hbody⟩ := hown
        rw [hdeep] at hbody
        exact absurd ⟨f, r.body, hf, hbody⟩ hframe

theorem unCompressFails_iff {fs₁ fs₂ : FileSystem} {ok : Bool}
    (hdir : FileUtil.createDirectory fs cfg.lowStorageDir io.mkdirThrows = some fs₁)
    (hunpack : FileUtil.unCompress z fs₁ info.storage_path_ (transitPath cfg info) io.statOk io.read
      io.store = some (ok, fs₂)) :
    UnCompressFails cfg z io fs info ↔ ok = false := by
  constructor
  · rintro ⟨fs₁', fs₂', hdir', hunpack'⟩
    rw [hdir] at hdir'
    cases hdir'
    rw [hunpack] at hunpack'
    cases hunpack'
    rfl
  · rintro rfl
    exact ⟨fs₁, fs₂, hdir, hunpack⟩

/-! ## What `UnCompress` reads and writes -/

/-- `GetContent` succeeds on files of which it gets every byte, if the stored file has a size
    that `stat` can report. -/
theorem getContent_stored_iff {body : Bytes}
    (hsize : ∀ f, FileUtil.fileAt fs info.storage_path_ = some f →
      f.content.length < 9223372036854775808) :
    FileUtil.getContent fs info.storage_path_ [] io.statOk io.read = some (true, body) ↔
      ∃ f, FileUtil.fileAt fs info.storage_path_ = some f ∧ ReadsAll io f ∧ body = f.content := by
  have hback : ∀ f, FileUtil.fileAt fs info.storage_path_ = some f → ReadsAll io f →
      FileUtil.getContent fs info.storage_path_ [] io.statOk io.read = some (true, f.content) := by
    intro f hf hall
    rw [hall.stat]
    exact getContent_of_fileAt [] hf hall.fits hall.opens hall.delivered
  constructor
  · intro h
    suffices hread : ∃ f, FileUtil.fileAt fs info.storage_path_ = some f ∧ ReadsAll io f by
      obtain ⟨f, hf, hall⟩ := hread
      have hsame := (hback f hf hall).symm.trans h
      simp only [Option.some.injEq, Prod.mk.injEq, true_and] at hsame
      exact ⟨f, hf, hall, hsame.symm⟩
    have hmod : SizeT.modulus = 18446744073709551616 := rfl
    have hlt := FileUtil.stringMaxSize_lt
    unfold FileUtil.getContent FileUtil.getPosLen at h
    split at h
    · cases h
    · split at h
      · cases h
      · rename_i node hfind
        split at h
        · cases h
        · rename_i hopens
          split at h
          · cases h
          · rename_i hfits
            simp only [Option.some.injEq, Prod.mk.injEq, beq_iff_eq] at h
            cases node with
            | directory =>
              -- nothing can be read of a directory, and its size is not zero
              exfalso
              simp only [FileUtil.fileSize, hfind, List.length_nil, FileUtil.toSizeT, hmod] at h
              split at h <;> simp at h
            | file f =>
              have hf : FileUtil.fileAt fs info.storage_path_ = some f := by
                simp only [FileUtil.fileAt, hfind]
              cases hstat : io.statOk with
              | false =>
                -- `-1` is no length of a string
                simp only [FileUtil.fileSize, hfind, hstat, FileUtil.toSizeT, hmod,
                  Bool.false_eq_true, ↓reduceIte] at hfits
                omega
              | true =>
                rw [hstat, toSizeT_fileSize hfind (hsize f hf)] at h hfits
                have hlength := h.1
                simp only [List.drop_zero, List.take_length, List.length_take] at hlength
                exact ⟨f, hf, hstat, by simpa using hopens, by omega, by omega⟩
  · rintro ⟨f, hf, hall, rfl⟩
    exact hback f hf hall

theorem getContent_throws_iff
    (hsize : ∀ f, FileUtil.fileAt fs info.storage_path_ = some f →
      f.content.length < 9223372036854775808) :
    FileUtil.getContent fs info.storage_path_ [] io.statOk io.read = none ↔
      ReadThrows io fs info := by
  have hmod : SizeT.modulus = 18446744073709551616 := rfl
  have hlt := FileUtil.stringMaxSize_lt
  -- the sum `0 + len` is `len`
  have hadd : ∀ n : Int, SizeT.add 0 (FileUtil.toSizeT n) = FileUtil.toSizeT n := by
    intro n
    simp only [SizeT.add, FileUtil.toSizeT, hmod]
    omega
  unfold FileUtil.getContent FileUtil.getPosLen ReadThrows
  rw [hadd, if_neg (Nat.lt_irrefl _)]
  cases hfind : fs.find info.storage_path_ with
  | none => simp
  | some node =>
    cases io.read.opens with
    | false => simp
    | true =>
      simp only [Bool.not_true, Bool.false_eq_true, ↓reduceIte, ite_eq_left_iff, reduceCtorEq,
        imp_false, Decidable.not_not, Option.some.injEq, exists_eq_left', true_and]
      cases hstat : io.statOk with
      | false =>
        have hlong : FileUtil.stringMaxSize <
            FileUtil.toSizeT (FileUtil.fileSize fs info.storage_path_ false) := by
          have hmax : FileUtil.toSizeT (FileUtil.fileSize fs info.storage_path_ false) =
              18446744073709551615 := by
            cases node <;> simp [FileUtil.fileSize, hfind, FileUtil.toSizeT, hmod]
          omega
        simp [hlong]
      | true =>
        cases node with
        | directory =>
          simp [FileUtil.fileSize, hfind, FileUtil.toSizeT, hmod, FileUtil.le_stringMaxSize]
        | file f =>
          have hf : FileUtil.fileAt fs info.storage_path_ = some f := by
            simp only [FileUtil.fileAt, hfind]
          rw [toSizeT_fileSize hfind (hsize f hf)]
          simp

/-- `UnCompress` returns true where it reads the whole stored file and can write. -/
theorem unCompress_ok_iff {fs₂ : FileSystem} {ok : Bool}
    (hsize : ∀ f, FileUtil.fileAt fs info.storage_path_ = some f →
      f.content.length < 9223372036854775808)
    (h : FileUtil.unCompress z fs info.storage_path_ (transitPath cfg info) io.statOk io.read
      io.store = some (ok, fs₂)) :
    ok = true ↔ ∃ f, FileUtil.fileAt fs info.storage_path_ = some f ∧ ReadsAll io f ∧
      TransitOpens cfg io fs info := by
  unfold FileUtil.unCompress at h
  split at h
  · cases h
  · rename_i body hread
    cases h
    refine iff_of_false Bool.false_ne_true ?_
    rintro ⟨f, hf, hall, -⟩
    rw [(getContent_stored_iff hsize).mpr ⟨f, hf, hall, rfl⟩] at hread
    cases hread
  · rename_i body hread
    obtain ⟨f, hf, hall, -⟩ := (getContent_stored_iff hsize).mp hread
    obtain ⟨unpacked, -, hset⟩ := Option.map_eq_some_iff.mp h
    rw [setContent_eq] at hset
    split at hset
    · rename_i hopens
      cases hset
      exact iff_of_true rfl ⟨f, hf, hall, hopens⟩
    · rename_i hopens
      cases hset
      refine iff_of_false Bool.false_ne_true ?_
      rintro ⟨-, -, -, htransit⟩
      exact hopens htransit

/-- It throws where reading or unpacking does. -/
theorem unCompress_throws_iff
    (hsize : ∀ f, FileUtil.fileAt fs info.storage_path_ = some f →
      f.content.length < 9223372036854775808) :
    FileUtil.unCompress z fs info.storage_path_ (transitPath cfg info) io.statOk io.read
        io.store = none ↔
      ReadThrows io fs info ∨ ∃ f, FileUtil.fileAt fs info.storage_path_ = some f ∧
        ReadsAll io f ∧ ZstdWrapper.unpack z f.content = none := by
  rw [← getContent_throws_iff hsize]
  unfold FileUtil.unCompress
  cases hread : FileUtil.getContent fs info.storage_path_ [] io.statOk io.read with
  | none => simp
  | some result =>
    obtain ⟨ok, body⟩ := result
    cases ok with
    | false =>
      simp only [reduceCtorEq, false_or, false_iff]
      rintro ⟨f, hf, hall, -⟩
      rw [(getContent_stored_iff hsize).mpr ⟨f, hf, hall, rfl⟩] at hread
      cases hread
    | true =>
      obtain ⟨f, hf, hall, rfl⟩ := (getContent_stored_iff hsize).mp hread
      simp only [Option.map_eq_none_iff, reduceCtorEq, false_or]
      constructor
      · exact fun hunpack => ⟨f, hf, hall, hunpack⟩
      · rintro ⟨f', hf', -, hunpack⟩
        rw [hf] at hf'
        cases hf'
        exact hunpack

/-- What `unpack` returns is its input or the content of a frame. -/
theorem unpack_cases {content unpacked : Bytes} (h : ZstdWrapper.unpack z content = some unpacked) :
    unpacked = content ∨ z.Decompresses content unpacked := by
  unfold ZstdWrapper.unpack at h
  split at h
  · cases h
    exact .inl rfl
  · rename_i hne
    have hne' : content ≠ [] := by simpa using hne
    split at h
    · cases h
      exact .inl rfl
    · split at h
      · cases h
      · cases hdecompress : z.decompress (SizeT.mul content.length 4) content with
        | none =>
          rw [hdecompress] at h
          cases h
          exact .inl rfl
        | some decompressed =>
          rw [hdecompress] at h
          cases h
          exact .inr ⟨hne', _, hdecompress⟩
    · split at h
      · cases h
      · split at h
        · rename_i decompressed hdecompress
          split at h
          · cases h
            exact .inr ⟨hne', _, hdecompress⟩
          · cases h
            exact .inl rfl
        · cases h
          exact .inl rfl

/-- What the write and the reply let through is the content of the frame exactly if nothing was
    lost of it, or the frame was cut to its own content. -/
theorem contentThrough_iff (hone : z.OneContent) {f : File} {unpacked : Bytes}
    (hunpack : ZstdWrapper.unpack z f.content = some unpacked) :
    z.Decompresses f.content (if io.adds then unpacked.take io.store.written else []) ↔
      ContentThrough z io f := by
  constructor
  · intro hsent
    refine ⟨_, hsent, ?_, ?_⟩
    · cases io.adds <;> simp
    · obtain rfl | hcontent := unpack_cases hunpack
      · cases hadds : io.adds with
        | false => exact .inr ⟨hunpack, List.nil_prefix, .inr rfl⟩
        | true =>
          rw [hadds] at hsent
          by_cases hwhole : f.content.length ≤ io.store.written
          · left
            simp only [↓reduceIte, List.take_of_length_le hwhole]
            exact ⟨hunpack, hwhole⟩
          · right
            refine ⟨hunpack, List.take_prefix _ _, .inl ?_⟩
            simp only [↓reduceIte, List.length_take]
            omega
      · left
        have hsame := hone _ _ _ hsent hcontent
        rw [hsame]
        refine ⟨hunpack, ?_⟩
        have hlength := congrArg List.length hsame
        cases hadds : io.adds with
        | false =>
          simp only [hadds, Bool.false_eq_true, ↓reduceIte, List.length_nil] at hlength
          omega
        | true =>
          simp only [hadds, ↓reduceIte, List.length_take] at hlength
          omega
  · rintro ⟨content, hcontent, hadds, hcases⟩
    suffices hsent : (if io.adds then unpacked.take io.store.written else []) = content by
      rw [hsent]
      exact hcontent
    obtain ⟨hsame, hwhole⟩ | ⟨hsame, hfront, hcut⟩ := hcases
    · cases hunpack.symm.trans hsame
      cases hio : io.adds with
      | true => exact List.take_of_length_le hwhole
      | false => simpa [hio, eq_comm] using hadds
    · cases hunpack.symm.trans hsame
      cases hio : io.adds with
      | true =>
        have hwritten : io.store.written = content.length := by simpa [hio] using hcut
        simp only [↓reduceIte, hwritten]
        exact (List.prefix_iff_eq_take.mp hfront).symm
      | false => simpa [hio, eq_comm] using hadds

/-- Sending a file from the low directory. -/
theorem faithful_low_iff (hlow : info.storage_path_.contains cfg.lowStorageDir = true)
    (hopens : io.opens = true) :
    Faithful cfg z io fs info (sendDownload fs table info info.storage_path_ req io).replies ↔
      fs.find info.storage_path_ = none ∨
        ∃ f, FileUtil.fileAt fs info.storage_path_ = some f ∧
          (io.adds = true ∨ f.content = []) := by
  cases hfind : fs.find info.storage_path_ with
  | none => simp [faithful_of_error (sendDownload_error (.inl hfind))]
  | some node =>
    obtain ⟨r, hr, hcode, hbody⟩ := sendDownload_sent req table info hfind hopens
    rw [hr, faithful_singleton_iff hcode, hbody]
    simp only [OwnBody, hlow, ↓reduceIte, reduceCtorEq, false_or, false_implies, and_true,
      FileUtil.fileAt, hfind, Bool.true_eq_false]
    cases node with
    | directory => simp
    | file f =>
      simp only [Option.some.injEq, exists_eq_left', sentBody]
      cases io.adds with
      | true => simp
      | false => simp [eq_comm]

/-- Where `UnCompress` does not throw, what is asked of the written file or of the one from
    before comes down to one of the two. -/
theorem unpacked_iff {fs₂ : FileSystem} {ok : Bool} {P : File → Prop} {Q : Prop}
    (hsize : ∀ f, FileUtil.fileAt fs info.storage_path_ = some f →
      f.content.length < 9223372036854775808)
    (h : FileUtil.unCompress z fs info.storage_path_ (transitPath cfg info) io.statOk io.read
      io.store = some (ok, fs₂)) :
    ReadThrows io fs info ∨
      (∃ f, FileUtil.fileAt fs info.storage_path_ = some f ∧ ReadsAll io f ∧
        (ZstdWrapper.unpack z f.content = none ∨ TransitOpens cfg io fs info ∧ P f)) ∨
      (Q ∧ ¬∃ f, FileUtil.fileAt fs info.storage_path_ = some f ∧ ReadsAll io f ∧
        TransitOpens cfg io fs info) ↔
    if ok then ∃ f, FileUtil.fileAt fs info.storage_path_ = some f ∧ ReadsAll io f ∧ P f
    else Q := by
  have hthrows : ¬(ReadThrows io fs info ∨ ∃ f, FileUtil.fileAt fs info.storage_path_ = some f ∧
      ReadsAll io f ∧ ZstdWrapper.unpack z f.content = none) := by
    intro hthrows
    cases h.symm.trans ((unCompress_throws_iff hsize).mpr hthrows)
  obtain ⟨hread, hunpack⟩ := not_or.mp hthrows
  have hok := unCompress_ok_iff hsize h
  cases ok with
  | true =>
    obtain ⟨f, hf, hall, htransit⟩ := hok.mp rfl
    simp only [↓reduceIte]
    constructor
    · rintro (hthrow | ⟨f', hf', hall', hnone | ⟨-, hwritten⟩⟩ | ⟨-, hnot⟩)
      · exact absurd hthrow hread
      · exact absurd ⟨f', hf', hall', hnone⟩ hunpack
      · exact ⟨f', hf', hall', hwritten⟩
      · exact absurd ⟨f, hf, hall, htransit⟩ hnot
    · rintro ⟨f', hf', hall', hwritten⟩
      exact .inr (.inl ⟨f', hf', hall', .inr ⟨htransit, hwritten⟩⟩)
  | false =>
    have hnot : ¬∃ f, FileUtil.fileAt fs info.storage_path_ = some f ∧ ReadsAll io f ∧
        TransitOpens cfg io fs info := fun hthere => Bool.false_ne_true (hok.mpr hthere)
    simp only [Bool.false_eq_true, ↓reduceIte]
    constructor
    · rintro (hthrow | ⟨f', hf', hall', hnone | ⟨htransit, -⟩⟩ | ⟨hbefore, -⟩)
      · exact absurd hthrow hread
      · exact absurd ⟨f', hf', hall', hnone⟩ hunpack
      · exact absurd ⟨f', hf', hall', htransit⟩ hnot
      · exact hbefore
    · exact fun hbefore => .inr (.inr ⟨hbefore, hnot⟩)

/-- Sending what `UnCompress` left in the low directory. -/
theorem faithful_deep_iff {fs₁ fs₂ : FileSystem} {ok : Bool} (hone : z.OneContent)
    (hsize : ∀ f, FileUtil.fileAt fs info.storage_path_ = some f →
      f.content.length < 9223372036854775808)
    (hdeep : info.storage_path_.contains cfg.lowStorageDir = false) (hopens : io.opens = true)
    (hdir : FileUtil.createDirectory fs cfg.lowStorageDir io.mkdirThrows = some fs₁)
    (hunpack : FileUtil.unCompress z fs₁ info.storage_path_ (transitPath cfg info) io.statOk io.read
      io.store = some (ok, fs₂)) :
    Faithful cfg z io fs info (sendDownload fs₂ table info (transitPath cfg info) req io).replies ↔
      SendsUnpacked cfg z io fs₁ info := by
  have hstored : FileUtil.fileAt fs₁ info.storage_path_ = FileUtil.fileAt fs info.storage_path_ :=
    fileAt_createDirectory hdir
  have hsize₁ : ∀ f, FileUtil.fileAt fs₁ info.storage_path_ = some f →
      f.content.length < 9223372036854775808 := by rwa [hstored]
  unfold SendsUnpacked
  rw [unpacked_iff hsize₁ hunpack]
  have hfails := unCompressFails_iff hdir hunpack
  obtain ⟨rfl, rfl⟩ | ⟨rfl, hcreatable, -, body, unpacked, hread, hcontent, rfl⟩ :=
    unCompress_cases hunpack
  · -- nothing was written, so whatever is there is from before
    cases hfind : fs₂.find (transitPath cfg info) with
    | none => simp [faithful_of_error (sendDownload_error (.inl hfind))]
    | some node =>
      obtain ⟨r, hr, hcode, -⟩ := sendDownload_sent req table info hfind hopens
      rw [hr, faithful_singleton_iff hcode, hfails]
      simp [hdeep]
  · obtain ⟨f, hf, hall, rfl⟩ := (getContent_stored_iff hsize₁).mp hread
    have hfind := FileSystem.find_store (unpacked.take io.store.written) io.store.time hcreatable
    obtain ⟨r, hr, hcode, hbody⟩ := sendDownload_sent req table info hfind hopens
    rw [hr, faithful_singleton_iff hcode, hbody, hfails]
    have hf₀ := hstored.symm.trans hf
    simp only [OwnBody, hdeep, hf₀, hf, hall, Option.some.injEq, exists_eq_left', sentBody,
      Bool.false_eq_true, ↓reduceIte, Bool.true_eq_false, not_false_eq_true, implies_true, and_true,
      true_and]
    exact contentThrough_iff hone hcontent

variable (io) in
theorem downloadInfo_of_lookup {url : Bytes} (h : s.table.lookup url = some info) :
    downloadInfo io s url = info := by
  simp [downloadInfo, DataManager.getOneByURL, h]

/-- A download of a url in the table is faithful or fails exactly if what it looks at does not
    open or the right bytes get through. -/
theorem download_faithful_iff {url : Bytes} (hone : z.OneContent)
    (hsize : ∀ f, FileUtil.fileAt s.fs info.storage_path_ = some f →
      f.content.length < 9223372036854775808)
    (hpath : urlDecode req.path = some url) (hlookup : s.table.lookup url = some info) :
    Faithful cfg z io s.fs info (download cfg z io s req).replies ↔
      SendsOwnFile cfg z io s.fs info := by
  have hinfo := downloadInfo_of_lookup io hlookup
  -- once the file is prepared, the download is what sending it does
  have hsend : ∀ fs target, io.existsThrows = false →
      prepareDownload cfg z s.fs info io = (fs, some target) →
      download cfg z io s req = sendDownload fs s.table info target req io := by
    intro fs target hexists hprepare
    rw [← hinfo] at hprepare
    rw [download_eq_sendDownload hpath hprepare hexists, hinfo]
  obtain hnil | ⟨path, fs, target, hpath', hprepare, hexists, heq⟩ := download_cases cfg z io s req
  · -- no reply, so there was an exception
    refine iff_of_true (by simp [hnil, faithful_of_error]) ?_
    unfold SendsOwnFile
    cases hexists : io.existsThrows with
    | true => exact .inl rfl
    | false =>
      right; right
      have hnone : ∀ fs target, prepareDownload cfg z s.fs info io ≠ (fs, some target) := by
        intro fs target hprepare
        rw [hsend fs target hexists hprepare] at hnil
        exact sendDownload_replies_ne_nil hnil
      split
      · rename_i hlow
        exact absurd (prepareDownload_eq_some.mpr (.inl ⟨hlow, rfl, rfl⟩)) (hnone s.fs _)
      · rename_i hlow
        intro fs₁ hdir
        have hsize₁ : ∀ f, FileUtil.fileAt fs₁ info.storage_path_ = some f →
            f.content.length < 9223372036854775808 := by
          rwa [fileAt_createDirectory hdir]
        cases hunpack : FileUtil.unCompress z fs₁ info.storage_path_ (transitPath cfg info)
            io.statOk io.read io.store with
        | some result =>
          obtain ⟨ok, fs₂⟩ := result
          exact absurd (prepareDownload_eq_some.mpr
            (.inr ⟨by simpa using hlow, rfl, fs₁, ok, hdir, hunpack⟩)) (hnone fs₂ _)
        | none =>
          obtain hread | ⟨f, hf, hall, hthrow⟩ := (unCompress_throws_iff hsize₁).mp hunpack
          · exact .inl hread
          · exact .inr (.inl ⟨f, hf, hall, .inl hthrow⟩)
  · rw [hpath] at hpath'
    cases hpath'
    rw [hinfo] at hprepare
    rw [hsend fs target hexists hprepare]
    unfold SendsOwnFile
    simp only [hexists, Bool.false_eq_true, false_or]
    cases hopens : io.opens with
    | false => simp [faithful_of_error (sendDownload_error (.inr hopens))]
    | true =>
      simp only [Bool.true_eq_false, false_or]
      obtain ⟨hlow, rfl, rfl⟩ | ⟨hdeep, rfl, fs₁, ok, hdir, hunpack⟩ :=
        prepareDownload_eq_some.mp hprepare
      · rw [if_pos hlow]
        exact faithful_low_iff hlow hopens
      · simp only [hdeep, Bool.false_eq_true, ↓reduceIte]
        rw [faithful_deep_iff hone hsize hdeep hopens hdir hunpack, hdir]
        simp only [Option.some.injEq, forall_eq']

end

/-- A file `a` in the deep directory with those bytes, and nothing else. -/
def deepFiles (content : Bytes) : FileSystem :=
  FileSystem.store ∅ (resolve (Config.shipped.deepStorageDir ++ Bytes.ofString "a")) content 100

/-- A zstd that knows the frame of `hi` and its header. -/
def headerZstd : Zstd :=
  { hiZstd with frameContentSize := fun frame =>
      if hiFrame.take 6 <+: frame then .known 2 else .error }

theorem headerZstd_correct : headerZstd.Correct := by
  constructor
  · intro content frame h
    obtain ⟨rfl, hframe⟩ := Option.ite_none_right_eq_some.mp h
    rw [← Option.some.inj hframe]
    decide
  · exact hiZstd_correct.round_trip
  · exact hiZstd_correct.compress_le
  · exact hiZstd_correct.decompress_le

theorem eq_hiFrame_of_decompresses {frame content : Bytes}
    (h : headerZstd.Decompresses frame content) : frame = hiFrame := by
  obtain ⟨-, capacity, h⟩ := h
  exact (Option.ite_none_right_eq_some.mp h).1.1

theorem headerZstd_oneContent : headerZstd.OneContent := by
  rintro frame content content' ⟨-, capacity, h⟩ ⟨-, capacity', h'⟩
  obtain ⟨-, hcontent⟩ := Option.ite_none_right_eq_some.mp h
  obtain ⟨-, hcontent'⟩ := Option.ite_none_right_eq_some.mp h'
  exact Option.some.inj (hcontent.symm.trans hcontent')

theorem lookup_deepServer (fs : FileSystem) :
    (deepServer fs).table.lookup (Config.shipped.downloadPrefix ++ Bytes.ofString "a") =
      some deepInfo :=
  Table.lookup_insert _ _

/-- A whole frame is decompressed and sent. -/
theorem download_faithful_small :
    Faithful Config.shipped headerZstd wholeDownload (deepFiles hiFrame) deepInfo
      (download Config.shipped headerZstd wholeDownload (deepServer (deepFiles hiFrame))
        smallDownload).replies := by
  have hsize : ∀ f, FileUtil.fileAt (deepFiles hiFrame) deepInfo.storage_path_ = some f →
      f.content.length < 9223372036854775808 := by
    intro f hf
    cases hf
    decide
  apply (download_faithful_iff headerZstd_oneContent hsize urlDecode_smallDownload
    (lookup_deepServer _)).mpr
  have hdeep : deepInfo.storage_path_.contains Config.shipped.lowStorageDir = false := by decide
  have hframe : headerZstd.Decompresses hiFrame (Bytes.ofString "hi") := ⟨by decide, 2, by decide⟩
  right; right
  rw [if_neg (by simp [hdeep])]
  intro fs₁ hdir
  cases hdir
  refine .inr (.inl ⟨_, rfl, ⟨rfl, rfl, by decide, by decide⟩, .inr ⟨⟨by decide, rfl⟩, ?_⟩⟩)
  exact ⟨_, hframe, .inl rfl, .inl ⟨by decide, by decide⟩⟩

/-- A frame that was cut short by its last byte is sent as it is. -/
theorem download_not_faithful :
    ¬∀ (cfg : Config) (z : Zstd) (io : DownloadIo) (s : Server) (req : Request) (url : Bytes)
      (info : StorageInfo), z.Correct → z.OneContent → urlDecode req.path = some url →
      s.table.lookup url = some info →
      Faithful cfg z io s.fs info (download cfg z io s req).replies := by
  have hreply : (download Config.shipped headerZstd wholeDownload
      (deepServer (deepFiles (hiFrame.take 10))) smallDownload).replies =
        [{ reply 200 "Success" with body := hiFrame.take 10 }] := by decide
  intro h
  have hfaithful := h Config.shipped headerZstd wholeDownload
    (deepServer (deepFiles (hiFrame.take 10))) smallDownload _ deepInfo headerZstd_correct
    headerZstd_oneContent urlDecode_smallDownload (lookup_deepServer _)
  rw [hreply] at hfaithful
  obtain ⟨f, hf, hbody⟩ := hfaithful.own _ (List.mem_singleton_self _) (.inl rfl)
  cases hf
  have hwhole : hiFrame.take 10 = hiFrame := eq_hiFrame_of_decompresses hbody
  exact absurd hwhole (by decide)

end Storage
