import AsyncLogStorage.ForStd.Bytes
import AsyncLogStorage.ForStd.List
import AsyncLogStorage.ForStd.SizeT

/-!
# The log buffer

`mylog::Buffer` of `AsyncBuffer.hpp`: a byte vector with a read and a write
position. Positions and sizes are `size_t`, so what the code computes from them
wraps. `std::vector::resize` throws `std::length_error` past `max_size()`; a
`push` that throws is `none`, and the buffer it was called on stays as it was.
-/

namespace Mylog

/-- The fields of `util::LogConfig` that size the buffers. -/
structure LogConfig where
  bufferSize : UInt64
  threshold : UInt64
  linearGrowth : UInt64
deriving DecidableEq, Repr

/-- `std::vector<char>::max_size()`. -/
def vectorMaxSize : Nat := 9223372036854775807

/-- `std::vector<char>::resize`, which throws `std::length_error` past `max_size()`. -/
def resize (v : Bytes) (n : Nat) : Option Bytes :=
  if n ≤ vectorMaxSize then some (v.resize n 0) else none

structure Buffer where
  buffer : Bytes
  writePos : Nat
  readPos : Nat
deriving DecidableEq, Repr

namespace Buffer

/-- The constructor: `buffer_.resize(buffer_size)` on an empty vector. -/
def new (cfg : LogConfig) : Option Buffer :=
  (resize [] cfg.bufferSize.toNat).map fun v => { buffer := v, writePos := 0, readPos := 0 }

def isEmpty (b : Buffer) : Bool := b.writePos == b.readPos

def writeableSize (b : Buffer) : Nat := SizeT.sub b.buffer.length b.writePos

def readableSize (b : Buffer) : Nat := SizeT.sub b.writePos b.readPos

/-- The bytes that `Begin()` and `ReadableSize()` delimit. -/
def readable (b : Buffer) : Bytes := (b.buffer.drop b.readPos).take b.readableSize

/-- The capacity that `ToBeEnough` grows a full buffer to. -/
def grownSize (cfg : LogConfig) (b : Buffer) : Nat :=
  if b.buffer.length < cfg.threshold.toNat then
    SizeT.add (1 * b.buffer.length) b.buffer.length
  else
    SizeT.add cfg.linearGrowth.toNat b.buffer.length

def toBeEnough (cfg : LogConfig) (b : Buffer) (len : Nat) : Option Buffer :=
  if b.writeableSize ≤ len then
    (resize b.buffer (b.grownSize cfg)).map fun v => { b with buffer := v }
  else
    some b

/-- `Push`: `std::copy` stores the cells of `data` that lie inside the vector. -/
def push (cfg : LogConfig) (b : Buffer) (data : Bytes) : Option Buffer :=
  (b.toBeEnough cfg data.length).map fun b =>
    { b with
      buffer := b.buffer.overwrite b.writePos data
      writePos := SizeT.add b.writePos data.length }

def reset (b : Buffer) : Buffer := { b with writePos := 0, readPos := 0 }

/-- The index invariant: the readable range lies inside the vector. -/
structure Wf (b : Buffer) : Prop where
  read_le : b.readPos ≤ b.writePos
  write_le : b.writePos ≤ b.buffer.length
  size_le : b.buffer.length ≤ vectorMaxSize

/-! ## Construction, reset and swap -/

theorem new_wf {cfg : LogConfig} {b : Buffer} (h : new cfg = some b) :
    b.Wf ∧ b.readPos = 0 ∧ b.writePos = 0 ∧ b.buffer.length = cfg.bufferSize.toNat := by
  simp only [new, resize] at h
  split at h
  · rename_i hle
    cases h
    refine ⟨⟨by simp, by simp, ?_⟩, rfl, rfl, ?_⟩
    · simpa only [List.length_resize] using hle
    · simp only [List.length_resize]
  · exact nomatch h

@[simp] theorem isEmpty_reset (b : Buffer) : b.reset.isEmpty = true := rfl

@[simp] theorem readable_reset (b : Buffer) : b.reset.readable = [] := by
  simp [reset, readable, readableSize, SizeT.sub, SizeT.modulus]

/-! ## Sizes of a well-formed buffer -/

theorem Wf.size_lt {b : Buffer} (h : b.Wf) : b.buffer.length < SizeT.modulus :=
  Nat.lt_of_le_of_lt h.size_le (by decide)

theorem Wf.writeableSize_eq {b : Buffer} (h : b.Wf) :
    b.writeableSize = b.buffer.length - b.writePos :=
  SizeT.sub_eq h.write_le h.size_lt

theorem Wf.readableSize_eq {b : Buffer} (h : b.Wf) :
    b.readableSize = b.writePos - b.readPos :=
  SizeT.sub_eq h.read_le (Nat.lt_of_le_of_lt h.write_le h.size_lt)

theorem Wf.readable_eq {b : Buffer} (h : b.Wf) :
    b.readable = (b.buffer.drop b.readPos).take (b.writePos - b.readPos) := by
  rw [readable, h.readableSize_eq]

/-- A well-formed buffer is empty when it has nothing to read. -/
theorem Wf.isEmpty_iff {b : Buffer} (h : b.Wf) : b.isEmpty = true ↔ b.readable = [] := by
  have hr := h.read_le
  have hw := h.write_le
  rw [isEmpty, beq_iff_eq, h.readable_eq, List.take_eq_nil_iff, List.drop_eq_nil_iff]
  omega

/-! ## Growth and push -/

/-- The number of cells that one growth step adds. -/
def growth (cfg : LogConfig) (b : Buffer) : Nat :=
  if b.buffer.length < cfg.threshold.toNat then b.buffer.length else cfg.linearGrowth.toNat

theorem grownSize_eq (cfg : LogConfig) (b : Buffer) :
    b.grownSize cfg = SizeT.add b.buffer.length (b.growth cfg) := by
  unfold grownSize growth
  split
  · rw [Nat.one_mul]
  · simp only [SizeT.add, Nat.add_comm]

theorem growth_lt {cfg : LogConfig} {b : Buffer} (h : b.buffer.length < SizeT.modulus) :
    b.growth cfg < SizeT.modulus := by
  unfold growth
  split
  · exact h
  · exact cfg.linearGrowth.toNat_lt

/-- The sum that a growth step asks for, which may wrap. -/
theorem grownSize_cases (cfg : LogConfig) {b : Buffer} (h : b.buffer.length < SizeT.modulus) :
    (b.buffer.length + b.growth cfg < SizeT.modulus ∧
      b.grownSize cfg = b.buffer.length + b.growth cfg) ∨
    (SizeT.modulus ≤ b.buffer.length + b.growth cfg ∧
      b.grownSize cfg = b.buffer.length + b.growth cfg - SizeT.modulus) := by
  rw [grownSize_eq]
  by_cases hsum : b.buffer.length + b.growth cfg < SizeT.modulus
  · exact .inl ⟨hsum, SizeT.add_eq hsum⟩
  · have hle : SizeT.modulus ≤ b.buffer.length + b.growth cfg := by omega
    exact .inr ⟨hle, SizeT.add_eq_of_wrap h (growth_lt h) hle⟩

/-- What `ToBeEnough` does: nothing while there is more than `len` room, else one
    growth step, which throws past `max_size()`. -/
theorem toBeEnough_cases {cfg : LogConfig} {b b' : Buffer} {len : Nat}
    (h : b.toBeEnough cfg len = some b') :
    (len < b.writeableSize ∧ b' = b) ∨
    (b.writeableSize ≤ len ∧ b.grownSize cfg ≤ vectorMaxSize ∧
      b' = { b with buffer := b.buffer.resize (b.grownSize cfg) 0 }) := by
  simp only [toBeEnough, resize] at h
  split at h
  · rename_i hlen
    split at h
    · rename_i hmax
      cases h
      exact .inr ⟨hlen, hmax, rfl⟩
    · exact nomatch h
  · rename_i hlen
    cases h
    exact .inl ⟨by omega, rfl⟩

/-- What `Push` leaves behind, in terms of the buffer `ToBeEnough` returned. -/
theorem push_eq_some {cfg : LogConfig} {b b' : Buffer} {data : Bytes} :
    b.push cfg data = some b' ↔ ∃ g, b.toBeEnough cfg data.length = some g ∧
      { g with buffer := g.buffer.overwrite g.writePos data,
               writePos := SizeT.add g.writePos data.length } = b' :=
  Option.map_eq_some_iff

/-- Room after a push: what is left of it, or what the growth step added. -/
theorem push_writeableSize {cfg : LogConfig} {b b' : Buffer} {data : Bytes}
    (hsize : b.buffer.length < SizeT.modulus) (hlen : data.length ≤ b.writeableSize)
    (h : b.push cfg data = some b') :
    b'.writeableSize = if data.length = b.writeableSize then b.growth cfg
      else b.writeableSize - data.length := by
  obtain ⟨g, hg, rfl⟩ := push_eq_some.mp h
  obtain ⟨hlt, rfl⟩ | ⟨hle, -, rfl⟩ := toBeEnough_cases hg
  · rw [if_neg (by omega)]
    simp only [writeableSize, List.length_overwrite]
    exact SizeT.sub_add_of_le hlen
  · have heq : data.length = b.writeableSize := by omega
    rw [if_pos heq]
    simp only [writeableSize, List.length_overwrite, List.length_resize, grownSize_eq] at heq ⊢
    rw [heq]
    exact SizeT.sub_add_of_fill (growth_lt hsize)

/-- A push that throws has asked `resize` for more than `max_size()`. -/
theorem push_eq_none {cfg : LogConfig} {b : Buffer} {data : Bytes} :
    b.push cfg data = none ↔
      b.writeableSize ≤ data.length ∧ vectorMaxSize < b.grownSize cfg := by
  unfold push toBeEnough resize
  by_cases hle : b.writeableSize ≤ data.length
  · rw [if_pos hle]
    by_cases hmax : b.grownSize cfg ≤ vectorMaxSize
    · simp only [hmax, ↓reduceIte, Option.map_some, reduceCtorEq, hle, true_and, false_iff]
      omega
    · simp only [hmax, ↓reduceIte, Option.map_none, hle, true_and, true_iff]
      omega
  · rw [if_neg hle]
    simp only [Option.map_some, reduceCtorEq, hle, false_and]

/-- Growing keeps the index invariant and the readable bytes unless the new
    capacity falls below the write position. -/
theorem toBeEnough_wf {cfg : LogConfig} {b b' : Buffer} {len : Nat} (hwf : b.Wf)
    (h : b.toBeEnough cfg len = some b') (hroom : b.writePos ≤ b'.buffer.length) :
    b'.Wf ∧ b'.readPos = b.readPos ∧ b'.writePos = b.writePos ∧ b'.readable = b.readable := by
  obtain ⟨-, rfl⟩ | ⟨-, hmax, rfl⟩ := toBeEnough_cases h
  · exact ⟨hwf, rfl, rfl, rfl⟩
  · have hwf' : Wf { b with buffer := b.buffer.resize (b.grownSize cfg) 0 } :=
      ⟨hwf.read_le, hroom, by simpa only [List.length_resize] using hmax⟩
    refine ⟨hwf', rfl, rfl, ?_⟩
    rw [hwf'.readable_eq, hwf.readable_eq]
    exact List.drop_take_resize 0 hwf.write_le (by simpa only [List.length_resize] using hroom)

/-- A push that finds room after growing appends its data to the readable bytes. -/
theorem push_spec {cfg : LogConfig} {b g b' : Buffer} {data : Bytes} (hwf : b.Wf)
    (hg : b.toBeEnough cfg data.length = some g)
    (hroom : b.writePos + data.length ≤ g.buffer.length)
    (h : b.push cfg data = some b') :
    b'.Wf ∧ b'.readable = b.readable ++ data := by
  obtain ⟨hgwf, hgr, hgw, hgread⟩ := toBeEnough_wf hwf hg (by omega)
  obtain ⟨g', hg', rfl⟩ := push_eq_some.mp h
  rw [hg] at hg'
  cases hg'
  have hfit : g.writePos + data.length ≤ g.buffer.length := by omega
  have hadd : SizeT.add g.writePos data.length = g.writePos + data.length :=
    SizeT.add_eq (Nat.lt_of_le_of_lt hfit hgwf.size_lt)
  have hwf' : Wf { g with buffer := g.buffer.overwrite g.writePos data,
                          writePos := SizeT.add g.writePos data.length } := by
    refine ⟨?_, ?_, ?_⟩
    · have := hgwf.read_le
      simp only [hadd]
      omega
    · simpa only [hadd, List.length_overwrite] using hfit
    · simpa only [List.length_overwrite] using hgwf.size_le
  refine ⟨hwf', ?_⟩
  rw [hwf'.readable_eq, ← hgread, hgwf.readable_eq]
  simp only [hadd]
  exact List.drop_take_overwrite hgwf.read_le hfit

end Buffer

end Mylog
