import AsyncLogStorage.Native.LogDisk
import AsyncLogStorage.Spec.LogFailures
import AsyncLogStorage.Spec.LogFileName

/-!
# Contents of log files

What the operations on the files do to the content of the file of a name, and what a `Flush`
of one of the classes does to all contents.

## Key results

- `contentOf_appendTo`, `contentOf_map`, `contentOf_filter`: the operations
- `LogDisk.flush_cases`: a `Flush` appends to the file of the stream that it leaves open, or
  writes nothing and leaves no stream
-/

namespace Mylog

/-! ## Contents -/

/-- `fopen` changes no content: a file that is not there has none, and a new one has none. -/
@[simp] theorem contentOf_fopen (files : List LogFile) (name : Bytes) (now : LocalTime)
    (number : Nat) (other : Bytes) :
    contentOf (fopen files name now number).1 other = contentOf files other := by
  unfold fopen
  cases hfind : files.find? (·.name = name) with
  | some file => rfl
  | none =>
    unfold contentOf
    simp only [List.find?_append]
    cases hother : files.find? (·.name = other) with
    | some file => rfl
    | none =>
      by_cases hsame : name = other
      · simp [hsame]
      · simp [hsame]

/-- The file is there, and so are the others. -/
theorem map_name_fopen (files : List LogFile) (name : Bytes) (now : LocalTime) (number : Nat) :
    (fopen files name now number).2.name ∈ (fopen files name now number).1.map (·.name) ∧
      files.map (·.name) ⊆ (fopen files name now number).1.map (·.name) := by
  unfold fopen
  cases hfind : files.find? (·.name = name) with
  | some file =>
    have hname : file.name = name := by simpa using List.find?_some hfind
    exact ⟨List.mem_map.mpr ⟨file, List.mem_of_find?_eq_some hfind, hname⟩, List.Subset.refl _⟩
  | none => simp

/-- New contents, which depend on the old ones and on the names. -/
theorem contentOf_map (f : Bytes → Bytes → Bytes) (files : List LogFile) (name : Bytes) :
    contentOf (files.map fun file => { file with content := f file.name file.content }) name =
      if name ∈ files.map (·.name) then f name (contentOf files name) else [] := by
  induction files with
  | nil => rfl
  | cons file files ih =>
    by_cases hname : file.name = name
    · simp [contentOf, hname]
    · have hname' : name ≠ file.name := Ne.symm hname
      simpa [contentOf, hname, hname'] using ih

theorem contentOf_of_not_mem {files : List LogFile} {name : Bytes}
    (h : name ∉ files.map (·.name)) : contentOf files name = [] := by
  have hfind : files.find? (·.name = name) = none := by
    rw [List.find?_eq_none]
    intro file hfile hname
    exact h (List.mem_map.mpr ⟨file, hfile, by simpa using hname⟩)
  simp [contentOf, hfind]

theorem contentOf_appendTo {files : List LogFile} {name : Bytes} (bytes : Bytes)
    (h : name ∈ files.map (·.name)) (other : Bytes) :
    contentOf (appendTo name bytes files) other =
      if other = name then contentOf files name ++ bytes else contentOf files other := by
  let f (n content : Bytes) : Bytes := if n = name then content ++ bytes else content
  have hmap : appendTo name bytes files = files.map fun file =>
      { file with content := f file.name file.content } := by
    unfold appendTo
    apply List.map_congr_left
    intro file _
    simp only [f]
    split <;> rfl
  rw [hmap, contentOf_map f]
  simp only [f]
  by_cases hother : other = name
  · simp only [hother, h, ↓reduceIte]
  · simp only [hother, ↓reduceIte]
    split
    · rfl
    · rename_i habsent
      exact (contentOf_of_not_mem habsent).symm

/-- The files of which the names meet a condition. -/
theorem contentOf_filter (p : Bytes → Bool) (files : List LogFile) (name : Bytes) :
    contentOf (files.filter fun file => p file.name) name =
      if p name then contentOf files name else [] := by
  induction files with
  | nil => simp [contentOf]
  | cons file files ih =>
    by_cases hp : p file.name
    · rw [List.filter_cons_of_pos (by simpa using hp)]
      by_cases hname : file.name = name
      · rw [← hname, if_pos hp]
        simp [contentOf]
      · simpa [contentOf, hname] using ih
    · rw [List.filter_cons_of_neg (by simpa using hp), ih]
      by_cases hname : file.name = name
      · rw [← hname, if_neg hp, if_neg hp]
      · simp [contentOf, hname]

namespace LogDisk

@[simp] theorem contentOf_cut (size : Bytes → Nat) (files : List LogFile) (name : Bytes) :
    contentOf (cut size files) name = (contentOf files name).take (size name) := by
  unfold cut
  rw [contentOf_map fun n content => content.take (size n)]
  split
  · rfl
  · rename_i habsent
    rw [contentOf_of_not_mem habsent, List.take_nil]

@[simp] theorem map_name_cut (size : Bytes → Nat) (files : List LogFile) :
    (cut size files).map (·.name) = files.map (·.name) := by
  simp [cut]

/-! ## What a `Flush` does to the files -/

/-- A call that wrote nothing, and left no stream. -/
structure Silent (files : List LogFile) (flush : LogFlush) (after : LogFlush × LogOutput) :
    Prop where
  stream_eq : after.1.stream = none
  closed : flush.replaces = true ∨ flush.stream = none
  content : ∀ name, contentOf after.2.files name = contentOf files name

/-- A call that wrote `bytes` to `stream`, which is new or the one from before. -/
structure Appended (files : List LogFile) (flush : LogFlush) (after : LogFlush × LogOutput)
    (stream : Stream) (bytes : Bytes) : Prop where
  stream_eq : after.1.stream = some { stream with written := stream.written + bytes.length }
  alive : after.2.crashed = false
  there : stream.name ∈ after.2.files.map (·.name)
  opened : flush.replaces = true ∧ stream.written = 0 ∨
    flush.replaces = false ∧ flush.stream = some stream
  content : ∀ name, contentOf after.2.files name =
    if name = stream.name then contentOf files name ++ bytes else contentOf files name

/-- The bytes that `fwrite` takes. -/
def taken (stream : Stream) (chunk : Chunk) (io : FlushIo) : Bytes :=
  chunk.data.take (stream.fwrite chunk.data.length io.ready)

theorem length_taken (stream : Stream) (chunk : Chunk) (io : FlushIo) :
    (taken stream chunk io).length = stream.fwrite chunk.data.length io.ready := by
  rw [taken, List.length_take]
  have hle := stream.fwrite_le chunk.data.length io.ready
  omega

/-- Writing to an open file, after an `fopen` or not. -/
theorem contentOf_fwrite {files files' : List LogFile} {stream : Stream} (bytes : Bytes)
    (hthere : stream.name ∈ files'.map (·.name))
    (hcontent : ∀ name, contentOf files' name = contentOf files name) (name : Bytes) :
    contentOf (appendTo stream.name bytes files') name =
      if name = stream.name then contentOf files name ++ bytes else contentOf files name := by
  rw [contentOf_appendTo bytes hthere]
  split
  · rename_i hname
    rw [hcontent, hname]
  · exact hcontent name

theorem contentOf_initLogFile (s : RollFileFlush.State) (io : FlushIo) (name : Bytes) :
    contentOf (RollFileFlush.initLogFile s io).files name = contentOf s.files name := by
  unfold RollFileFlush.initLogFile
  split
  · cases io.opens
    · rfl
    · exact contentOf_fopen s.files _ io.now _ name
  · rfl

theorem initLogFile_there {s : RollFileFlush.State} {io : FlushIo} {stream : Stream}
    (hthere : ∀ stream, s.roll.fs_ = some stream → stream.name ∈ s.files.map (·.name))
    (h : (RollFileFlush.initLogFile s io).roll.fs_ = some stream) :
    stream.name ∈ (RollFileFlush.initLogFile s io).files.map (·.name) := by
  unfold RollFileFlush.initLogFile at h ⊢
  split at h
  · rename_i hneeds
    rw [if_pos hneeds]
    cases hopens : io.opens with
    | false => simp [hopens] at h
    | true =>
      simp only [hopens, ↓reduceIte, Option.some.injEq] at h ⊢
      rw [← h]
      exact (map_name_fopen _ _ _ _).1
  · rename_i hneeds
    rw [if_neg hneeds]
    exact hthere stream h

/-- A stream that replaces another one is new. -/
theorem initLogFile_written {s : RollFileFlush.State} {io : FlushIo} {stream : Stream}
    (hneeds : s.roll.needsFile)
    (h : (RollFileFlush.initLogFile s io).roll.fs_ = some stream) : stream.written = 0 := by
  unfold RollFileFlush.initLogFile at h
  rw [if_pos hneeds] at h
  cases hopens : io.opens with
  | false => simp [hopens] at h
  | true =>
    simp only [hopens, ↓reduceIte, Option.some.injEq] at h
    rw [← h]
    exact RollFileFlush.fopen_written _ _ _ _

theorem flush_rollFileFlush (flush_log : Nat) {files : List LogFile} (roll : RollFileFlush)
    (chunk : Chunk) (io : FlushIo)
    (hthere : ∀ stream, roll.fs_ = some stream → stream.name ∈ files.map (·.name)) :
    let flush := LogFlush.rollFileFlush roll
    let after := flush.flush flush_log ⟨files, [], [], false⟩ chunk io
    Silent files flush after ∨ ∃ stream bytes, Appended files flush after stream bytes := by
  intro flush after
  have hcontent := contentOf_initLogFile ⟨files, roll, [], false⟩ io
  have hcases := @RollFileFlush.initLogFile_fs_cases ⟨files, roll, [], false⟩ io
  cases hfs : (RollFileFlush.initLogFile ⟨files, roll, [], false⟩ io).roll.fs_ with
  | none =>
    left
    obtain ⟨hneeds, -⟩ := RollFileFlush.initLogFile_fs_eq_none.mp hfs
    constructor
    case stream_eq =>
      simp only [after, flush, LogFlush.flush, LogOutput.rollState, RollFileFlush.flush,
        RollFileFlush.write, hfs, LogFlush.stream]
    case closed => exact .inl (decide_eq_true hneeds)
    case content =>
      intro name
      simpa only [after, flush, LogFlush.flush, LogOutput.rollState, RollFileFlush.flush,
        RollFileFlush.write, hfs] using hcontent name
  | some stream =>
    right
    have hmem := initLogFile_there hthere hfs
    refine ⟨stream, taken stream chunk io, ?_⟩
    constructor
    case stream_eq =>
      simp only [after, flush, LogFlush.flush, LogOutput.rollState, RollFileFlush.flush,
        RollFileFlush.write, hfs, LogFlush.stream, length_taken]
    case alive =>
      simp only [after, flush, LogFlush.flush, LogOutput.rollState, RollFileFlush.flush,
        RollFileFlush.write, hfs, RollFileFlush.initLogFile_crashed]
    case there =>
      simpa only [after, flush, LogFlush.flush, LogOutput.rollState, RollFileFlush.flush,
        RollFileFlush.write, hfs, map_name_appendTo] using hmem
    case opened =>
      by_cases hneeds : roll.needsFile
      · left
        exact ⟨decide_eq_true hneeds, initLogFile_written hneeds hfs⟩
      · right
        refine ⟨decide_eq_false hneeds, ?_⟩
        have hinit : RollFileFlush.initLogFile ⟨files, roll, [], false⟩ io =
            ⟨files, roll, [], false⟩ := if_neg hneeds
        rw [hinit] at hfs
        exact hfs
    case content =>
      intro name
      simpa only [after, flush, LogFlush.flush, LogOutput.rollState, RollFileFlush.flush,
        RollFileFlush.write, hfs, taken] using
        contentOf_fwrite (taken stream chunk io) hmem hcontent name

/-- Every call is of one of the two kinds. -/
theorem flush_cases (flush_log : Nat) {files : List LogFile} (flush : LogFlush) (chunk : Chunk)
    (io : FlushIo)
    (hthere : ∀ stream, flush.stream = some stream → stream.name ∈ files.map (·.name)) :
    let after := flush.flush flush_log ⟨files, [], [], false⟩ chunk io
    Silent files flush after ∨ ∃ stream bytes, Appended files flush after stream bytes := by
  intro after
  cases flush with
  | stdoutFlush => exact .inl ⟨rfl, .inr rfl, fun _ => rfl⟩
  | fileFlush file =>
    cases hfs : file.fs_ with
    | none =>
      left
      have hafter : after = (.fileFlush file, ⟨files, [], [], false⟩) := by
        simp only [after, LogFlush.flush, FileFlush.flush, hfs]
      rw [hafter]
      exact ⟨hfs, .inr hfs, fun _ => rfl⟩
    | some stream =>
      right
      have hmem := hthere stream hfs
      refine ⟨stream, taken stream chunk io, ?_⟩
      constructor
      case stream_eq =>
        simp only [after, LogFlush.flush, FileFlush.flush, hfs, LogFlush.stream, length_taken]
      case alive => simp only [after, LogFlush.flush, FileFlush.flush, hfs]
      case there =>
        simpa only [after, LogFlush.flush, FileFlush.flush, hfs, map_name_appendTo] using hmem
      case opened => exact .inr ⟨rfl, hfs⟩
      case content =>
        intro name
        simpa only [after, LogFlush.flush, FileFlush.flush, hfs, taken] using
          contentOf_fwrite (taken stream chunk io) hmem (fun _ => rfl) name
  | rollFileFlush roll => exact flush_rollFileFlush flush_log roll chunk io hthere

end LogDisk

end Mylog
