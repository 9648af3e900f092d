import AsyncLogStorage.Spec.Upload

/-!
# Unpacking zstd data

zstd data is a list of frames, and decompressing it gives their contents one after the other.
`unpack` asks the header of the first frame for the size of all that comes out, and guesses
where the header does not tell.

## Key results

- `unpack_eq_iff`: when `unpack` does what zstd does, and `unpack` undoes `pack`
-/

namespace Storage

/-- The contents of all frames. -/
def decode (frames : Bytes → Option (List Bytes)) (b : Bytes) : Option Bytes :=
  (frames b).map List.flatten

/-- `frames` are the frames that zstd finds in its input, `none` where the input is invalid:
    a header tells the size of the first frame or nothing, and `ZSTD_decompress` fails where the
    buffer is too small for all of them. -/
structure Zstd.HasFrames (z : Zstd) (frames : Bytes → Option (List Bytes)) : Prop where
  frames_nil : frames [] = some []
  eq_nil_of_frames : ∀ b, frames b = some [] → b = []
  first_size : ∀ b first rest, frames b = some (first :: rest) →
    z.frameContentSize b = .unknown ∨ z.frameContentSize b = .known first.length
  decompress_eq : ∀ capacity b,
    z.decompress capacity b = (decode frames b).filter (·.length ≤ capacity)

namespace ZstdWrapper

/-- The inputs on which `unpack` does what zstd does. It also does so, by chance, where the input
    is its own content. -/
def Agrees (z : Zstd) (frames : Bytes → Option (List Bytes)) (b : Bytes) : Prop :=
  b = [] ∨
    match z.frameContentSize b with
    | .error => True
    | .unknown =>
      SizeT.mul b.length 4 ≤ FileUtil.stringMaxSize ∧
        ∀ out, decode frames b = some out → out.length ≤ SizeT.mul b.length 4 ∨ out = b
    | .known size =>
      size ≤ FileUtil.stringMaxSize ∧
        ∀ first rest, frames b = some (first :: rest) →
          (∀ frame ∈ rest, frame = []) ∨ (first :: rest).flatten = b

variable {z : Zstd} {frames : Bytes → Option (List Bytes)} {b : Bytes}

theorem unpack_nil_eq (hz : z.HasFrames frames) :
    unpack z [] = some ((decode frames []).getD []) := by
  have hdecode : decode frames [] = some [] := by
    simp only [decode, hz.frames_nil, Option.map_some, List.flatten_nil]
  rw [hdecode]
  rfl

/-- What a header reports as no frame is none. -/
theorem decode_eq_none_of_error (hz : z.HasFrames frames) (hb : b ≠ [])
    (hsize : z.frameContentSize b = .error) : decode frames b = none := by
  unfold decode
  cases hframes : frames b with
  | none => rfl
  | some fs =>
    cases fs with
    | nil => exact absurd (hz.eq_nil_of_frames b hframes) hb
    | cons first rest =>
      obtain h | h := hz.first_size b first rest hframes
      · rw [hsize] at h
        cases h
      · rw [hsize] at h
        cases h

/-- A buffer that was guessed. -/
theorem unpack_unknown_iff (hz : z.HasFrames frames) (hb : b ≠ [])
    (hsize : z.frameContentSize b = .unknown) :
    unpack z b = some ((decode frames b).getD b) ↔
      SizeT.mul b.length 4 ≤ FileUtil.stringMaxSize ∧
        ∀ out, decode frames b = some out → out.length ≤ SizeT.mul b.length 4 ∨ out = b := by
  have hne : b.isEmpty = false := by simpa using hb
  have hunpack : unpack z b =
      if FileUtil.stringMaxSize < SizeT.mul b.length 4 then none
      else some ((z.decompress (SizeT.mul b.length 4) b).getD b) := by
    simp only [unpack, hne, Bool.false_eq_true, ↓reduceIte, hsize]
  rw [hunpack, hz.decompress_eq]
  split
  · rename_i hlt
    simp only [reduceCtorEq, false_iff, not_and, Nat.not_le.mpr hlt, false_implies]
  · rename_i hfits
    rw [Nat.not_lt] at hfits
    simp only [hfits, true_and, Option.some.injEq]
    cases hdecode : decode frames b with
    | none => simp
    | some out =>
      simp only [Option.getD_some, Option.some.injEq, forall_eq']
      by_cases hle : out.length ≤ SizeT.mul b.length 4
      · simp [Option.filter, hle]
      · simp only [Option.filter, decide_eq_true_eq, hle, ↓reduceIte, Option.getD_none, false_or]
        exact eq_comm

/-- A buffer of the size of the first frame holds all frames exactly where the others are
    empty. -/
theorem length_flatten_le_iff (first : Bytes) (rest : List Bytes) :
    (first :: rest).flatten.length ≤ first.length ↔ ∀ frame ∈ rest, frame = [] := by
  rw [List.flatten_cons, List.length_append, ← List.flatten_eq_nil_iff,
    ← List.length_eq_zero_iff]
  omega

/-- What does not come out at the size that the header tells is left packed. -/
theorem unpack_of_known {size : Nat} (hb : b ≠ []) (hsize : z.frameContentSize b = .known size)
    (hfits : size ≤ FileUtil.stringMaxSize) {out : Option Bytes}
    (hout : z.decompress size b = out) (hlen : ∀ d, out = some d → d.length = size) :
    unpack z b = some (out.getD b) := by
  have hne : b.isEmpty = false := by simpa using hb
  simp only [unpack, hne, Bool.false_eq_true, ↓reduceIte, hsize, if_neg (Nat.not_lt.mpr hfits),
    hout]
  cases out with
  | none => rfl
  | some d => simp only [hlen d rfl, ↓reduceIte, Option.getD_some]

/-- A size that the header tells is that of the first frame. -/
theorem length_first_of_known (hz : z.HasFrames frames) {size : Nat}
    (hsize : z.frameContentSize b = .known size) {first : Bytes} {rest : List Bytes}
    (hframes : frames b = some (first :: rest)) : first.length = size := by
  have hfirst := hz.first_size b first rest hframes
  rw [hsize] at hfirst
  obtain h | h := hfirst
  · cases h
  · exact (FrameContentSize.known.inj h).symm

/-- In a buffer of that size there is room for the first frame alone. -/
theorem unpack_frames_iff (hz : z.HasFrames frames) (hb : b ≠ []) {size : Nat}
    (hsize : z.frameContentSize b = .known size) (hfits : size ≤ FileUtil.stringMaxSize)
    {first : Bytes} {rest : List Bytes} (hframes : frames b = some (first :: rest)) :
    unpack z b = some (first :: rest).flatten ↔
      (∀ frame ∈ rest, frame = []) ∨ (first :: rest).flatten = b := by
  have hfirst := length_first_of_known hz hsize hframes
  have hroom := length_flatten_le_iff first rest
  have hdecompress : z.decompress size b =
      (some (first :: rest).flatten).filter (·.length ≤ size) := by
    rw [hz.decompress_eq, decode, hframes, Option.map_some]
  rw [hfirst] at hroom
  rw [Option.filter_some] at hdecompress
  by_cases hle : (first :: rest).flatten.length ≤ size
  · have hlen : (first :: rest).flatten.length = size := by
      rw [List.flatten_cons, List.length_append] at hle ⊢
      omega
    rw [if_pos (by simpa using hle)] at hdecompress
    rw [unpack_of_known hb hsize hfits hdecompress (fun d hd => (Option.some.inj hd) ▸ hlen),
      Option.getD_some]
    exact ⟨fun _ => .inl (hroom.mp hle), fun _ => rfl⟩
  · rw [if_neg (by simpa using hle)] at hdecompress
    rw [unpack_of_known hb hsize hfits hdecompress (by simp), Option.getD_none,
      Option.some.injEq, or_iff_right (mt hroom.mpr hle)]
    exact eq_comm

/-- A buffer of the size that the header tells. -/
theorem unpack_known_iff (hz : z.HasFrames frames) (hb : b ≠ []) {size : Nat}
    (hsize : z.frameContentSize b = .known size) :
    unpack z b = some ((decode frames b).getD b) ↔
      size ≤ FileUtil.stringMaxSize ∧
        ∀ first rest, frames b = some (first :: rest) →
          (∀ frame ∈ rest, frame = []) ∨ (first :: rest).flatten = b := by
  by_cases hfits : size ≤ FileUtil.stringMaxSize
  · rw [and_iff_right hfits, decode]
    cases hframes : frames b with
    | none =>
      have hdecompress : z.decompress size b = none := by
        rw [hz.decompress_eq, decode, hframes]
        rfl
      rw [unpack_of_known hb hsize hfits hdecompress (by simp)]
      simp
    | some fs =>
      cases fs with
      | nil => exact absurd (hz.eq_nil_of_frames b hframes) hb
      | cons first rest =>
        rw [Option.map_some, Option.getD_some, unpack_frames_iff hz hb hsize hfits hframes]
        constructor
        · intro h first' rest' heq
          cases heq
          exact h
        · intro h
          exact h first rest rfl
  · have hne : b.isEmpty = false := by simpa using hb
    have hthrow : unpack z b = none := by
      simp only [unpack, hne, Bool.false_eq_true, ↓reduceIte, hsize, if_pos (Nat.not_le.mp hfits)]
    simp only [hthrow, reduceCtorEq, hfits, false_and]

/-- `unpack` undoes `pack` exactly where `pack` compresses. -/
theorem unpack_pack_iff (hz : z.HasFrames frames) (hcorrect : z.Correct) {content : Bytes}
    (hsize : content.length ≤ FileUtil.stringMaxSize) :
    (packThrows z content = false ∧ unpack z (pack z content) = some content) ↔
      content = [] ∨
        (z.compressBound content.length ≤ FileUtil.stringMaxSize ∧ z.compress content ≠ none) := by
  cases content with
  | nil => simp [packThrows, pack, unpack]
  | cons c content =>
    have hthrows : packThrows z (c :: content) = false ↔
        z.compressBound (c :: content).length ≤ FileUtil.stringMaxSize := by
      simp [packThrows]
    rw [hthrows]
    simp only [reduceCtorEq, false_or]
    apply and_congr_right
    intro _
    cases hcompress : z.compress (c :: content) with
    | none => simp [pack, hcompress, unpack]
    | some frame =>
      have hpack : pack z (c :: content) ≠ [] := by
        rintro hnil
        have hframe : frame = [] := by
          simpa only [pack, List.isEmpty_cons, Bool.false_eq_true, ↓reduceIte, hcompress,
            Option.getD_some] using hnil
        -- no frame decompresses to something
        have hround := hcorrect.round_trip _ _ hcompress
        rw [hframe, hz.decompress_eq, decode, hz.frames_nil] at hround
        simp [Option.filter] at hround
      simp only [unpack_pack hcorrect hsize hpack, ne_eq, reduceCtorEq, not_false_eq_true]

/-- `unpack` does what zstd does exactly where the buffer that it makes is large enough: the
    whole content is in the first frame, whose size is recorded, or it is not recorded and at
    most four times as much comes out as goes in. And it undoes `pack` where `pack` compresses. -/
theorem unpack_eq_iff (z : Zstd) (frames : Bytes → Option (List Bytes))
    (hz : z.HasFrames frames) (hcorrect : z.Correct) :
    (∀ b, unpack z b = some ((decode frames b).getD b) ↔ Agrees z frames b) ∧
    ∀ content : Bytes, content.length ≤ FileUtil.stringMaxSize →
      ((packThrows z content = false ∧ unpack z (pack z content) = some content) ↔
        content = [] ∨ (z.compressBound content.length ≤ FileUtil.stringMaxSize ∧
          z.compress content ≠ none)) := by
  refine ⟨fun b => ?_, fun content hsize => unpack_pack_iff hz hcorrect hsize⟩
  unfold Agrees
  by_cases hb : b = []
  · rw [hb]
    exact ⟨fun _ => .inl rfl, fun _ => unpack_nil_eq hz⟩
  · have hne : b.isEmpty = false := by simpa using hb
    simp only [hb, false_or]
    cases hsize : z.frameContentSize b with
    | error =>
      have hunpack : unpack z b = some b := by
        simp only [unpack, hne, Bool.false_eq_true, ↓reduceIte, hsize]
      simp only [hunpack, decode_eq_none_of_error hz hb hsize, Option.getD_none]
    | unknown => exact unpack_unknown_iff hz hb hsize
    | known size => exact unpack_known_iff hz hb hsize

/-! ## Some frames -/

/-- The frame of a thousand bytes `a` that a stream compressor makes, which does not know the
    size yet when it writes the header. -/
def runFrame : Bytes := [0x28, 0xb5, 0x2f, 0xfd, 0x00, 0x00, 0x43, 0x1f, 0x00, 0x61]

/-- What zstd finds in a few inputs. -/
def sampleFrames (b : Bytes) : Option (List Bytes) :=
  if b = [] then some []
  else if b = hiFrame then some [[0x68, 0x69]]
  else if b = hiFrame ++ hiFrame then some [[0x68, 0x69], [0x68, 0x69]]
  else if b = runFrame then some [List.replicate 1000 0x61]
  else none

/-- A zstd that knows these inputs, and compresses the two bytes `hi`. -/
def sampleZstd : Zstd where
  compressBound := fun size => size + size / 256 + 64
  compress := fun content => if content = [0x68, 0x69] then some hiFrame else none
  frameContentSize := fun b =>
    if b = hiFrame ∨ b = hiFrame ++ hiFrame then .known 2
    else if b = runFrame then .unknown
    else .error
  decompress := fun capacity b => (decode sampleFrames b).filter (·.length ≤ capacity)

theorem sampleZstd_hasFrames : sampleZstd.HasFrames sampleFrames := by
  constructor
  · rfl
  · intro b h
    unfold sampleFrames at h
    split at h
    · assumption
    · split at h
      · cases h
      · split at h
        · cases h
        · split at h
          · cases h
          · cases h
  · intro b first rest h
    unfold sampleFrames at h
    split at h
    · cases h
    · split at h
      · rename_i hb
        cases h
        exact .inr (by rw [hb]; rfl)
      · split at h
        · rename_i hb
          cases h
          exact .inr (by rw [hb]; rfl)
        · split at h
          · rename_i hb
            exact .inl (by rw [hb]; rfl)
          · cases h
  · intro capacity b
    rfl

theorem sampleZstd_correct : sampleZstd.Correct := by
  have hhi : ∀ {content frame : Bytes}, sampleZstd.compress content = some frame →
      content = [0x68, 0x69] ∧ frame = hiFrame := by
    intro content frame h
    obtain ⟨rfl, hframe⟩ := Option.ite_none_right_eq_some.mp h
    exact ⟨rfl, (Option.some.inj hframe).symm⟩
  constructor
  · intro content frame h
    obtain ⟨rfl, rfl⟩ := hhi h
    decide
  · intro content frame h
    obtain ⟨rfl, rfl⟩ := hhi h
    decide
  · intro content frame _ h
    obtain ⟨rfl, rfl⟩ := hhi h
    decide
  · intro capacity frame content h
    obtain ⟨-, hle⟩ := Option.filter_eq_some_iff.mp h
    simpa using hle

/-- A frame of two bytes is unpacked. -/
theorem unpack_hiFrame : unpack sampleZstd hiFrame = some [0x68, 0x69] := by
  have hiff := (unpack_eq_iff sampleZstd sampleFrames sampleZstd_hasFrames sampleZstd_correct).1
  have hagrees : Agrees sampleZstd sampleFrames hiFrame := by
    right
    refine ⟨by decide, fun first rest h => ?_⟩
    cases h
    exact .inl (by decide)
  exact (hiff hiFrame).mpr hagrees

/-- Two frames, one after the other, stay packed, and so does a frame that does not record its
    size if much more comes out than goes in. -/
theorem unpack_leaves_packed : sampleZstd.HasFrames sampleFrames ∧ sampleZstd.Correct ∧
    unpack sampleZstd (hiFrame ++ hiFrame) ≠
      some ((decode sampleFrames (hiFrame ++ hiFrame)).getD (hiFrame ++ hiFrame)) ∧
    unpack sampleZstd runFrame ≠ some ((decode sampleFrames runFrame).getD runFrame) := by
  have hrun : decode sampleFrames runFrame = some (List.replicate 1000 0x61) := by
    rw [decode, sampleFrames, if_neg (by decide), if_neg (by decide), if_neg (by decide),
      if_pos rfl, Option.map_some, List.flatten_singleton]
  refine ⟨sampleZstd_hasFrames, sampleZstd_correct, by decide, ?_⟩
  intro h
  obtain ⟨-, hfits⟩ := (unpack_unknown_iff sampleZstd_hasFrames (by decide) (by rfl)).mp h
  -- forty bytes are too few
  obtain hle | heq := hfits _ hrun
  · rw [List.length_replicate] at hle
    exact absurd hle (by decide)
  · have hlen := congrArg List.length heq
    rw [List.length_replicate] at hlen
    exact absurd hlen (by decide)

end ZstdWrapper

end Storage
