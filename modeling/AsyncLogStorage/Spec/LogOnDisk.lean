import AsyncLogStorage.Spec.LogDurability

/-!
# The files of a logger on the disk

A file of `LogPipeline` is what the calls of `fwrite` took for it, and `LogDisk` follows these
bytes to the system and to the disk. A logger with one output writes as a process of `LogDisk`
does whose calls succeed, so what `LogDurability` says of a file holds of the logger's file.

## Key results

- `flush_congr`: what a `Flush` writes does not depend on what was called before
- `reachable_onDisk`: the state of `LogDisk` for a reachable state of a logger
- `flushed_stays`: under `flush_log` 1 and 2 the files of a logger survive its process
-/

namespace Mylog

/-- A `Flush` looks at the files only. -/
theorem LogFlush.flush_congr (flush_log : Nat) (flush : LogFlush) {out : LogOutput} (chunk : Chunk)
    (io : FlushIo) (halive : out.crashed = false) :
    (flush.flush flush_log ⟨out.files, [], [], false⟩ chunk io).1 =
        (flush.flush flush_log out chunk io).1 ∧
      (flush.flush flush_log ⟨out.files, [], [], false⟩ chunk io).2.files =
        (flush.flush flush_log out chunk io).2.files ∧
      (flush.flush flush_log ⟨out.files, [], [], false⟩ chunk io).2.crashed =
        (flush.flush flush_log out chunk io).2.crashed := by
  cases flush with
  | stdoutFlush => exact ⟨rfl, rfl, halive.symm⟩
  | fileFlush file =>
    cases hfs : file.fs_ with
    | none =>
      simp only [LogFlush.flush, FileFlush.flush, hfs]
      exact ⟨trivial, trivial, halive.symm⟩
    | some stream =>
      simp only [LogFlush.flush, FileFlush.flush, hfs]
      exact ⟨trivial, trivial, halive.symm⟩
  | rollFileFlush roll =>
    -- the calls and the end of an earlier process are carried along
    have hinit : RollFileFlush.initLogFile (out.rollState roll) io =
        { RollFileFlush.initLogFile
            (LogOutput.rollState ⟨out.files, [], [], false⟩ roll) io with calls := out.calls } := by
      by_cases hneeds : roll.needsFile
      · simp only [RollFileFlush.initLogFile, LogOutput.rollState, halive, hneeds, if_true]
      · simp only [RollFileFlush.initLogFile, LogOutput.rollState, halive, hneeds, if_false]
    simp only [LogFlush.flush, RollFileFlush.flush, hinit]
    cases hfs : (RollFileFlush.initLogFile
        (LogOutput.rollState ⟨out.files, [], [], false⟩ roll) io).roll.fs_ with
    | none => simp only [RollFileFlush.write, hfs, and_self]
    | some stream => simp only [RollFileFlush.write, hfs, and_self]

namespace LogDisk

variable {s t : State} {flush_log : Nat} {old : List LogFile}

theorem files_fclose (s : State) : (s.fclose true).files = s.files := by
  unfold State.fclose
  split
  · rfl
  · rfl

theorem call_frame (s : State) (name : Bytes) (call : StdioCall) :
    (s.call name call).files = s.files ∧ (s.call name call).flush = s.flush := by
  cases call with
  | fwrite | ferror | fflush | fileno | fsync => exact ⟨rfl, rfl⟩

/-- The calls of `flush_log` are made, one after the other. -/
theorem exists_returned {calls : List StdioCall}
    (h : (system flush_log old).ReachableBy (fun _ a => a.Works) s) (hpending : s.pending = calls)
    (hstream : calls ≠ [] → s.stream.isSome = true) :
    ∃ t, (system flush_log old).ReachableBy (fun _ a => a.Works) t ∧ t.files = s.files ∧
      t.flush = s.flush ∧ t.pending = [] := by
  induction calls generalizing s with
  | nil => exact ⟨s, h, rfl, rfl, hpending⟩
  | cons call calls ih =>
    obtain ⟨stream, hsome⟩ := Option.isSome_iff_exists.mp (hstream (List.cons_ne_nil _ _))
    obtain ⟨hfiles, hflush⟩ := call_frame s stream.name call
    have hstep : (system flush_log old).step s (.call true) =
        some { s.call stream.name call with pending := calls } := by
      simp only [system, step, hsome, hpending, ↓reduceIte]
    have hstream' : State.stream { s.call stream.name call with pending := calls } = s.stream := by
      simp only [State.stream, hflush]
    obtain ⟨t, ht, htfiles, htflush, htpending⟩ := ih (h.step (C := fun _ a => a.Works) rfl hstep)
      rfl (fun _ => by rw [hstream', hsome]; rfl)
    exact ⟨t, ht, htfiles.trans hfiles, htflush.trans hflush, htpending⟩

/-- Where the stream is null, a `Flush` has nothing to call behind its `fwrite`. -/
theorem stream_of_pending {flush : LogFlush} {chunk : Chunk} {io : FlushIo} (h : Ready s flush)
    (hpending : (s.write flush_log flush chunk io).pending ≠ []) :
    (s.write flush_log flush chunk io).stream.isSome = true := by
  obtain hsilent | ⟨stream, bytes, happended⟩ := flush_cases flush_log flush chunk io h.there
  · refine absurd ?_ hpending
    simp only [State.write, hsilent.stream_eq, Option.isSome_none, Bool.false_eq_true, ↓reduceIte]
  · rw [happended.stream_write]
    rfl

end LogDisk

namespace LogPipeline

variable {cfg : LogConfig} {type : AsyncType} {flush_log : Nat} {old : List LogFile}
  {ftype : FlushType} {s s' : State}

/-- The process of `LogDisk` with the files of the logger and its only output. -/
structure OnDisk (s : State) (t : LogDisk.State) : Prop where
  files : t.files = s.out.files
  single : ∃ flush, s.flushes_ = [flush] ∧ (s.out.crashed = false → t.flush = some flush)
  returned : t.pending = []

/-- One call of `Flush` is one of the process, with the calls that it makes of `flush_log`. -/
theorem flush_onDisk {t : LogDisk.State} {io : FlushIo} (h : OnDisk s t)
    (ht : (LogDisk.system flush_log old).ReachableBy (fun _ a => a.Works) t)
    (hstep : step cfg type flush_log s (.flush io) = some s') :
    ∃ t', (LogDisk.system flush_log old).ReachableBy (fun _ a => a.Works) t' ∧ OnDisk s' t' := by
  obtain ⟨halive, hstep⟩ := Option.ite_none_left_eq_some.mp hstep
  obtain ⟨-, hstep⟩ := Option.ite_none_right_eq_some.mp hstep
  obtain ⟨flush, hflush, rfl⟩ := Option.map_eq_some_iff.mp hstep
  have halive : s.out.crashed = false := by simpa using halive
  obtain ⟨single, hsingle, hrunning⟩ := h.single
  rw [hsingle] at hflush
  obtain ⟨hcalled, rfl⟩ : s.called = 0 ∧ single = flush := by
    simpa using List.getElem?_eq_some_iff.mp hflush
  have hclosed : (if single.replaces then t.fclose true else t).files = s.out.files := by
    split
    · rw [LogDisk.files_fclose, h.files]
    · exact h.files
  obtain ⟨hsame, hfiles, hcrashed⟩ :=
    single.flush_congr flush_log s.asyncworker.consumer.chunk io halive
  have hwrite : (LogDisk.system flush_log old).step t
      (.flush s.asyncworker.consumer.chunk io true) =
        some ((if single.replaces then t.fclose true else t).write flush_log single
          s.asyncworker.consumer.chunk io) := by
    simp only [LogDisk.system, LogDisk.step, hrunning halive, h.returned, ↓reduceIte]
  have hready := (LogDisk.inv_of_reachable ht.reachable).ready (hrunning halive) true
  obtain ⟨t', hreach, hfiles', hflush', hpending⟩ := LogDisk.exists_returned
    (ht.step (C := fun _ a => a.Works) trivial hwrite) rfl (LogDisk.stream_of_pending hready)
  refine ⟨t', hreach, ?_, ⟨(single.flush flush_log s.out s.asyncworker.consumer.chunk io).1, ?_,
    fun hends => ?_⟩, hpending⟩
  · rw [hfiles', ← hfiles, ← hclosed]
    rfl
  · rw [hsingle, hcalled]
    rfl
  · rw [hflush', ← hsame, ← hclosed]
    rw [← hclosed] at hcrashed
    exact if_neg (by rw [hcrashed, hends]; exact Bool.false_ne_true)

/-- The directory when the process begins. -/
theorem start_onDisk (b : Buffer) (n : Nat) (ftype : FlushType) :
    ∃ t, (LogDisk.system flush_log old).ReachableBy (fun _ a => a.Works) t ∧
      OnDisk (start old [ftype] b n) t := by
  have hstart : (LogDisk.system flush_log old).ReachableBy (fun _ a => a.Works)
      (LogDisk.start old) := ⟨_, [], rfl, trivial, rfl⟩
  have hstep : (LogDisk.system flush_log old).step (LogDisk.start old) (.start ftype) =
      some { LogDisk.start old with
        flush := some (ftype.create old).2, files := (ftype.create old).1 } := rfl
  exact ⟨_, hstart.step (C := fun _ a => a.Works) trivial hstep, rfl, ⟨_, rfl, fun _ => rfl⟩, rfl⟩

/-- A logger with one output writes as a process of `LogDisk` does, in which every `fclose`,
    `fflush` and `fsync` succeeds. -/
theorem reachable_onDisk (h : (system cfg type flush_log old [ftype]).Reachable s) :
    ∃ t, (LogDisk.system flush_log old).ReachableBy (fun _ a => a.Works) t ∧ OnDisk s t := by
  apply h.invariant (I := fun s => ∃ t,
    (LogDisk.system flush_log old).ReachableBy (fun _ a => a.Works) t ∧ OnDisk s t)
  · rintro s ⟨b, n, -, rfl⟩
    exact start_onDisk b n ftype
  · rintro s a s' ⟨t, ht, hon⟩ hstep
    cases a with
    | flush io =>
      have hflush : step cfg type flush_log s (.flush io) = some s' := hstep
      exact flush_onDisk hon ht hflush
    | asyncworker a =>
      obtain ⟨-, hstep⟩ := Option.ite_none_left_eq_some.mp hstep
      obtain ⟨-, hstep⟩ := Option.ite_none_right_eq_some.mp hstep
      obtain ⟨worker, -, rfl⟩ := Option.map_eq_some_iff.mp hstep
      exact ⟨t, ht, hon.files, hon.single, hon.returned⟩

/-- Under `flush_log` 1 and 2, what a logger has in its files is there when its process has
    ended, whatever comes but a power cut. -/
theorem flushed_stays (h : (system cfg type flush_log old [ftype]).Reachable s)
    (hcases : flush_log = 1 ∨ flush_log = 2) :
    ∃ t, OnDisk s t ∧ ∀ name, LogDisk.KeptPowered (LogDisk.system flush_log old) t name := by
  obtain ⟨t, ht, hon⟩ := reachable_onDisk h
  refine ⟨t, hon, fun name => ?_⟩
  rw [LogDisk.keptPowered_iff (LogDisk.inv_of_reachable ht.reachable)]
  apply (LogDisk.called_of_reachableBy ht).flushed hcases
  rw [hon.returned]
  exact List.not_mem_nil

end LogPipeline

end Mylog
