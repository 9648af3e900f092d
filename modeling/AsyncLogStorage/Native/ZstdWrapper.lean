import AsyncLogStorage.Native.FileUtil

/-!
# Compression

`zstd_wrapper` of `zstd_wrapper.h` over the functions of the zstd library, which are
parameters: a call that `ZSTD_isError` reports is `none`.
-/

namespace Storage

/-- What `ZSTD_getFrameContentSize` returns. -/
inductive FrameContentSize where
  | error
  | unknown
  | known (size : Nat)
deriving DecidableEq, Repr

/-- The zstd library. -/
structure Zstd where
  /-- `ZSTD_compressBound`. -/
  compressBound : Nat → Nat
  /-- `ZSTD_compress` at level 3 into `ZSTD_compressBound` bytes. -/
  compress : Bytes → Option Bytes
  frameContentSize : Bytes → FrameContentSize
  /-- `ZSTD_decompress` into a buffer of the given capacity. -/
  decompress : Nat → Bytes → Option Bytes

namespace ZstdWrapper

/-- `pack`, where it does not throw. -/
def pack (z : Zstd) (content : Bytes) : Bytes :=
  if content.isEmpty then content else (z.compress content).getD []

/-- `pack` ends in the `std::length_error` of its `resize`. -/
def packThrows (z : Zstd) (content : Bytes) : Bool :=
  !content.isEmpty && decide (FileUtil.stringMaxSize < z.compressBound content.length)

/-- `unpack`; `none` is the `std::length_error` of `resize`. -/
def unpack (z : Zstd) (content : Bytes) : Option Bytes :=
  if content.isEmpty then some content
  else match z.frameContentSize content with
    | .error => some content
    | .unknown =>
      if FileUtil.stringMaxSize < SizeT.mul content.length 4 then none
      else some ((z.decompress (SizeT.mul content.length 4) content).getD content)
    | .known size =>
      if FileUtil.stringMaxSize < size then none
      else match z.decompress size content with
        | some decompressed =>
          if decompressed.length = size then some decompressed else some content
        | none => some content

end ZstdWrapper

/-- What the documentation of zstd says of its functions: a frame that `ZSTD_compress` made
    fits into its buffer, records the size of its content and decompresses to it, and
    `ZSTD_decompress` stays inside its buffer. -/
structure Zstd.Correct (z : Zstd) : Prop where
  frame_size : ∀ content frame, z.compress content = some frame →
    z.frameContentSize frame = .known content.length
  round_trip : ∀ content frame, z.compress content = some frame →
    z.decompress content.length frame = some content
  compress_le : ∀ content frame, content.length ≤ FileUtil.stringMaxSize →
    z.compress content = some frame → frame.length ≤ FileUtil.stringMaxSize
  decompress_le : ∀ capacity frame content, z.decompress capacity frame = some content →
    content.length ≤ capacity

namespace ZstdWrapper

/-- `unpack` undoes a `pack` that did not fail. -/
theorem unpack_pack {z : Zstd} {content : Bytes} (hz : z.Correct)
    (hsize : content.length ≤ FileUtil.stringMaxSize) (hpack : pack z content ≠ []) :
    unpack z (pack z content) = some content := by
  cases content with
  | nil => simp [pack, unpack]
  | cons b bs =>
    cases hcompress : z.compress (b :: bs) with
    | none => simp [pack, hcompress] at hpack
    | some frame =>
      have heq : pack z (b :: bs) = frame := by
        simp only [pack, List.isEmpty_cons, Bool.false_eq_true, ↓reduceIte, hcompress,
          Option.getD_some]
      rw [heq] at hpack ⊢
      have hnonempty : frame.isEmpty = false := by simpa using hpack
      have hfits : ¬FileUtil.stringMaxSize < (b :: bs).length := by omega
      simp only [unpack, hnonempty, Bool.false_eq_true, ↓reduceIte, hz.frame_size _ _ hcompress,
        hfits, hz.round_trip _ _ hcompress]

/-- An unpacked string fits into a `std::string`. -/
theorem unpack_length_le {z : Zstd} {content unpacked : Bytes} (hz : z.Correct)
    (hsize : content.length ≤ FileUtil.stringMaxSize) (h : unpack z content = some unpacked) :
    unpacked.length ≤ FileUtil.stringMaxSize := by
  unfold unpack at h
  split at h
  · rw [← Option.some.inj h]
    exact hsize
  · split at h
    · rw [← Option.some.inj h]
      exact hsize
    · split at h
      · exact nomatch h
      · rename_i hfits
        rw [← Option.some.inj h]
        cases hdecompress : z.decompress (SizeT.mul content.length 4) content with
        | none => exact hsize
        | some d =>
          have hle := hz.decompress_le _ _ _ hdecompress
          show d.length ≤ FileUtil.stringMaxSize
          omega
    · split at h
      · exact nomatch h
      · rename_i size _ hfits
        split at h
        · split at h
          · rename_i hlen
            rw [← Option.some.inj h, hlen]
            omega
          · rw [← Option.some.inj h]
            exact hsize
        · rw [← Option.some.inj h]
          exact hsize

end ZstdWrapper

end Storage
