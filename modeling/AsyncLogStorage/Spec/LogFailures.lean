import AsyncLogStorage.Spec.LogRoll

/-!
# Failed opens and short writes

`RollFileFlush::Flush` looks neither at the stream that `InitLogFile` leaves behind nor at the
count that `fwrite` returns. `FileFlush::Flush` at least tests its stream.

## Key results

- `RollFileFlush.flush_survives_iff`: no null stream is used, and `cur_size_` counts the bytes
  in the file, exactly as long as no `fopen` fails and no `fwrite` is short
- `FileFlush.flushCalls_ne_none`: `FileFlush` uses no null stream
-/

namespace Mylog

/-- Where its file could not be opened, `FileFlush` does nothing. -/
theorem FileFlush.flushCalls_ne_none (flush_log : Nat) (file : FileFlush) (chunk : Chunk)
    (ready : Nat) : ∀ call ∈ file.flushCalls flush_log chunk ready, call.2 ≠ none := by
  intro call hcall
  unfold FileFlush.flushCalls at hcall
  split at hcall
  · cases hcall
  · obtain ⟨f, -, rfl⟩ := List.mem_map.mp hcall
    exact Option.some_ne_none _

namespace RollFileFlush

/-- No function was called with a null stream, and `cur_size_` is the number of bytes written
    to the open file since it was opened. -/
def Survives (s : State) : Prop :=
  (∀ call ∈ s.calls, call.2 ≠ none) ∧
    ∀ stream, s.roll.fs_ = some stream → s.roll.cur_size_ = stream.written

/-- Where a file has to be opened `fopen` succeeds, and `fwrite` takes the whole chunk. -/
def NoFailure (s : State) : Action → Prop
  | .flush chunk io => (s.roll.needsFile → io.opens = true) ∧ TakesAll s chunk io
  | .restart => True

/-- What every step keeps: only a null stream ends the process, and no file is too large. -/
structure Inv (s : State) : Prop where
  null_of_crashed : s.crashed = true → ∃ call ∈ s.calls, call.2 = none
  written_le : ∀ stream, s.roll.fs_ = some stream → stream.written ≤ maxFileSize

theorem inv_start (basename_ : Bytes) (max : Nat) (files : List LogFile) :
    Inv (start basename_ max files) := by
  constructor
  · intro h
    cases h
  · intro stream h
    cases h

@[simp] theorem initLogFile_calls (s : State) (io : FlushIo) :
    (initLogFile s io).calls = s.calls := by
  unfold initLogFile
  split <;> rfl

@[simp] theorem initLogFile_crashed (s : State) (io : FlushIo) :
    (initLogFile s io).crashed = s.crashed := by
  unfold initLogFile
  split <;> rfl

/-- A stream that was just opened has nothing written to it. -/
theorem fopen_written (files : List LogFile) (name : Bytes) (now : LocalTime) (number : Nat) :
    (fopen files name now number).2.written = 0 := by
  unfold fopen
  split <;> rfl

/-- `InitLogFile` leaves no stream exactly where `fopen` fails. -/
theorem initLogFile_fs_eq_none {s : State} {io : FlushIo} :
    (initLogFile s io).roll.fs_ = none ↔ s.roll.needsFile ∧ io.opens = false := by
  unfold initLogFile
  split
  · rename_i hneeds
    cases io.opens <;> simp [hneeds]
  · rename_i hneeds
    simp only [needsFile, not_or] at hneeds
    simp only [needsFile, hneeds, false_or, false_and]

/-- The stream is new, with `cur_size_` at zero, or the one from before. -/
theorem initLogFile_fs_cases {s : State} {io : FlushIo} {stream : Stream}
    (h : (initLogFile s io).roll.fs_ = some stream) :
    (stream.written = 0 ∧ (initLogFile s io).roll.cur_size_ = 0) ∨
      (s.roll.fs_ = some stream ∧ initLogFile s io = s) := by
  unfold initLogFile at h ⊢
  split at h
  · rename_i hneeds
    left
    cases hopens : io.opens with
    | false =>
      rw [hopens] at h
      cases h
    | true =>
      rw [hopens] at h
      cases h
      rw [if_pos hneeds]
      exact ⟨fopen_written _ _ _ _, rfl⟩
  · rename_i hneeds
    rw [if_neg hneeds]
    exact .inr ⟨h, rfl⟩

theorem Inv.initLogFile {s : State} (h : Inv s) (io : FlushIo) :
    Inv (RollFileFlush.initLogFile s io) := by
  constructor
  · rw [initLogFile_crashed, initLogFile_calls]
    exact h.null_of_crashed
  · intro stream hstream
    obtain ⟨hzero, -⟩ | ⟨hold, -⟩ := initLogFile_fs_cases hstream
    · rw [hzero]
      exact Nat.zero_le _
    · exact h.written_le stream hold

theorem Inv.write {flush_log : Nat} {s : State} (h : Inv s) (chunk : Chunk) (ready : Nat) :
    Inv (RollFileFlush.write flush_log s chunk ready) := by
  unfold RollFileFlush.write
  split
  · rename_i hnone
    constructor
    · intro _
      exact ⟨(.fwrite, none), List.mem_append_right _ (List.mem_singleton_self _), rfl⟩
    · intro stream hstream
      rw [hnone] at hstream
      cases hstream
  · rename_i stream hsome
    constructor
    · intro hcrashed
      obtain ⟨call, hcall, hnull⟩ := h.null_of_crashed hcrashed
      exact ⟨call, List.mem_append_left _ hcall, hnull⟩
    · intro stream' hstream'
      cases hstream'
      exact Stream.add_fwrite_le stream chunk.data.length ready (h.written_le stream hsome)

theorem inv_step {flush_log : Nat} {s s' : State} {a : Action} (h : Inv s)
    (hstep : step flush_log s a = some s') : Inv s' := by
  cases a with
  | flush chunk io =>
    simp only [step, Option.some.injEq] at hstep
    split at hstep
    · rwa [← hstep]
    · rw [← hstep]
      exact (h.initLogFile io).write chunk io.ready
  | restart =>
    cases hstep
    constructor
    · intro hcrashed
      cases hcrashed
    · intro stream hstream
      cases hstream

/-- The sum that `cur_size_` becomes is the count of bytes exactly where all were taken. -/
theorem add_eq_add_iff {size len count : Nat} (hlen : len < SizeT.modulus) (hle : count ≤ len)
    (hfits : size + count ≤ maxFileSize) : SizeT.add size len = size + count ↔ count = len := by
  simp only [SizeT.add, SizeT.modulus, maxFileSize] at *
  omega

/-- `Flush` keeps its accounts exactly where nothing fails. -/
theorem survives_flush_iff {flush_log : Nat} {s : State} {chunk : Chunk} {io : FlushIo}
    (hinv : Inv s) (hs : Survives s) :
    Survives (flush flush_log s chunk io) ↔ NoFailure s (.flush chunk io) := by
  have hinv₁ := hinv.initLogFile io
  unfold flush write
  cases hfs : (initLogFile s io).roll.fs_ with
  | none =>
    -- `fopen` has failed, and `fwrite` gets the null stream
    obtain ⟨hneeds, hopens⟩ := initLogFile_fs_eq_none.mp hfs
    constructor
    · intro h
      exact absurd rfl (h.1 (.fwrite, none) (List.mem_append_right _ (List.mem_singleton_self _)))
    · intro h
      rw [h.1 hneeds] at hopens
      cases hopens
  | some stream =>
    have hopens : s.roll.needsFile → io.opens = true := by
      intro hneeds
      cases hopens : io.opens with
      | true => rfl
      | false =>
        rw [initLogFile_fs_eq_none.mpr ⟨hneeds, hopens⟩] at hfs
        cases hfs
    have hsize : (initLogFile s io).roll.cur_size_ = stream.written := by
      obtain ⟨hzero, hcur⟩ | ⟨hold, hsame⟩ := initLogFile_fs_cases hfs
      · rw [hzero, hcur]
      · rw [hsame]
        exact hs.2 stream hold
    have hfits := stream.add_fwrite_le chunk.data.length io.ready (hinv₁.written_le stream hfs)
    have hcount := add_eq_add_iff chunk.length_lt (stream.fwrite_le chunk.data.length io.ready)
      hfits
    have htakes : TakesAll s chunk io ↔
        stream.fwrite chunk.data.length io.ready = chunk.data.length := by
      simp only [TakesAll, hfs, Option.some.injEq, forall_eq']
    have hcalls : ∀ call ∈ (initLogFile s io).calls ++
        (StdioCall.fwrite :: .ferror :: flushLogCalls flush_log).map (·, some stream.name),
        call.2 ≠ none := by
      intro call hcall
      obtain hcall | hcall := List.mem_append.mp hcall
      · rw [initLogFile_calls] at hcall
        exact hs.1 call hcall
      · obtain ⟨f, -, rfl⟩ := List.mem_map.mp hcall
        exact Option.some_ne_none _
    simp only [Survives, Option.some.injEq, forall_eq', hsize, hcount, NoFailure, htakes]
    exact ⟨fun h => ⟨hopens, h.2⟩, fun h => ⟨hcalls, h.2⟩⟩

/-- Whatever `fopen` and `fwrite` do, `RollFileFlush` uses no null stream and counts the bytes
    in its file exactly as long as every `fopen` that is needed succeeds and every `fwrite`
    takes the whole chunk. -/
theorem flush_survives_iff (basename_ : Bytes) (max flush_log : Nat) (files : List LogFile)
    (as : List Action) :
    (system basename_ max flush_log files).Always Survives (start basename_ max files) as ↔
      (system basename_ max flush_log files).AllSteps NoFailure (start basename_ max files)
        as := by
  have hstart : Survives (start basename_ max files) := by
    constructor
    · intro call hcall
      cases hcall
    · intro stream hstream
      cases hstream
  apply Transition.always_iff_allSteps (I := Inv) _ _ _ (inv_start basename_ max files) hstart
  · intro s a s' hs hstep
    exact inv_step hs hstep
  · -- every action is enabled
    intro s a hstep
    cases a with
    | flush chunk io => cases hstep
    | restart => cases hstep
  · intro s a s' hinv hs hstep
    cases a with
    | flush chunk io =>
      have halive : s.crashed = false := by
        cases hcrashed : s.crashed with
        | false => rfl
        | true =>
          obtain ⟨call, hcall, hnull⟩ := hinv.null_of_crashed hcrashed
          exact absurd hnull (hs.1 call hcall)
      simp only [system, step, halive, Bool.false_eq_true, ↓reduceIte,
        Option.some.injEq] at hstep
      rw [← hstep]
      exact survives_flush_iff hinv hs
    | restart =>
      cases hstep
      refine ⟨fun _ => trivial, fun _ => ⟨hs.1, ?_⟩⟩
      intro stream hstream
      cases hstream

/-- The directory is missing, so the first `fopen` fails. -/
theorem flush_null_stream :
    ¬∀ as : List Action, (system (Bytes.ofString "logfile/RollFile_log") 1048576 1 []).Always
      Survives (start (Bytes.ofString "logfile/RollFile_log") 1048576 []) as := by
  intro h
  have hfirst := h [.flush ⟨[], by decide⟩ ⟨.cut 124 0 1 0 0 0, false, 0⟩]
  obtain ⟨hcalls, -⟩ := hfirst.2 _ rfl
  exact hcalls (.fwrite, none) List.mem_cons_self rfl

end RollFileFlush

end Mylog
